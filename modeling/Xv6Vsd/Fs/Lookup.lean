import Xv6Vsd.Fs.Path

/-!
# Path names as lists of names

`skipelem` cuts a path at its slashes, so that the lookup of `a/b` is that of `b` from where `a` leads.
-/

namespace Xv6Vsd

open List

/-- What stands between the slashes, each cut to `DIRSIZ` bytes. -/
def parts (path : List UInt8) : List (List UInt8) := ((path.splitOn slash).filter (· ≠ [])).map (take dirsiz)

theorem parts_join (a b : List UInt8) : parts (a ++ slash :: b) = parts a ++ parts b := by
  simp [parts, splitOn_append_cons_self]

theorem parts_dropWhile (path : List UInt8) : parts (path.dropWhile (· = slash)) = parts path := by
  induction path with
  | nil => rfl
  | cons c path ih =>
    by_cases hc : c = slash
    · rw [hc, dropWhile_cons_of_pos (by simp), ih]; exact (parts_join [] path).symm
    · rw [dropWhile_cons_of_neg (by simpa using hc)]

theorem parts_cons {c} (hc : c ≠ slash) (s : List UInt8) : parts (c :: s) =
    (c :: s.takeWhile (· ≠ slash)).take dirsiz :: parts (s.dropWhile (· ≠ slash)) := by
  have hname : slash ∉ c :: s.takeWhile (· ≠ slash) := by
    rw [mem_cons, not_or]
    exact ⟨hc.symm, fun hmem => by simpa using all_eq_true.mp all_takeWhile _ hmem⟩
  have hparts : parts (c :: s.takeWhile (· ≠ slash)) = [(c :: s.takeWhile (· ≠ slash)).take dirsiz] := by
    rw [parts, splitOn_eq_singleton hname]
    rfl
  have hjoin : c :: s = c :: s.takeWhile (· ≠ slash) ++ s.dropWhile (· ≠ slash) := by simp
  rw [hjoin]
  cases hd : s.dropWhile (· ≠ slash) with
  | nil => rw [append_nil, hparts]; rfl
  | cons d rest =>
    have hslash : d = slash := by
      simpa only [hd, head_cons, decide_eq_false_iff_not, not_not] using head_dropWhile_not (l := s) (· ≠ slash)
        (by rw [hd]; simp)
    rw [hslash, parts_join, hparts]
    exact congrArg _ (parts_join [] rest).symm

theorem elemsFrom_eq {fuel} {path} (h : path.length ≤ fuel) : elemsFrom fuel path = parts path := by
  induction fuel generalizing path with
  | zero => rw [length_eq_zero_iff.mp (Nat.le_zero.mp h)]; rfl
  | succ fuel ih =>
    rw [elemsFrom, skipelem, ← parts_dropWhile path]
    cases hs : path.dropWhile (· = slash) with
    | nil => rfl
    | cons c s =>
      have hc : c ≠ slash := by simpa [hs] using head_dropWhile_not (l := path) (· = slash) (by simp [hs])
      have hlen := (dropWhile_sublist (· = slash) (l := path)).length_le
      have hrest := ((dropWhile_sublist (· = slash)).trans (dropWhile_sublist (· ≠ slash) (l := s))).length_le
      rw [hs, length_cons] at hlen
      rw [parts_cons hc, ← parts_dropWhile (s.dropWhile _), ← ih (by omega)]
      simp [hc]

theorem elems_eq_split (path : List UInt8) :
    elems path = ((path.splitOn slash).filter (· ≠ [])).map (take dirsiz) := elemsFrom_eq (Nat.le_refl _)

/-! ## The walk -/

theorem walk_append (parent direct : Bool) {ys} (hys : ys ≠ []) (xs : List (List UInt8)) (r : IRef) :
    walk parent direct (xs ++ ys) r = walk false direct xs r >>= fun x =>
      x.1.elim (pure (none, x.2)) (walk parent direct ys) := by
  induction xs generalizing r with
  | nil => rfl
  | cons name rest ih =>
    have hmore : ¬(parent = true ∧ rest ++ ys = []) := fun h => hys (append_eq_nil_iff.mp h.2).2
    rw [cons_append, walk, walk, bind_assoc]
    refine bind_congr fun _ => ?_
    rw [bind_assoc]
    refine bind_congr fun ip => ?_
    have hwhole : ¬((false : Bool) = true ∧ rest = []) := by simp
    rw [if_neg hmore, if_neg hwhole]
    split
    · simp only [bind_assoc, pure_bind, Option.elim_none]
    rw [bind_assoc]
    refine bind_congr fun found => ?_
    cases found with
    | none => simp only [bind_assoc, pure_bind, Option.elim_none]
    | some found => simp only [bind_assoc, ih]

/-- The lookup of `a/b`, from wherever it starts, is that of `a` followed by that of `b`, step by step. -/
theorem walk_elems_join (parent direct : Bool) (a : List UInt8) {b : List UInt8} (hb : elems b ≠ []) (r : IRef) :
    walk parent direct (elems (a ++ slash :: b)) r = walk false direct (elems a) r >>= fun x =>
      x.1.elim (pure (none, x.2)) (walk parent direct (elems b)) := by
  have hjoin : elems (a ++ slash :: b) = elems a ++ elems b := by
    simp only [elems, elemsFrom_eq (Nat.le_refl _), parts_join]
  rw [hjoin, walk_append parent direct hb]

theorem walk_elems_join_short : elems [98] ≠ [] ∧ walk false false (elems [97, 47, 98]) ⟨1, 1⟩ =
    walk false false (elems [97]) ⟨1, 1⟩ >>= fun x => x.1.elim (pure (none, x.2)) (walk false false (elems [98])) :=
  ⟨by decide, walk_elems_join false false [97] (by decide) _⟩

end Xv6Vsd
