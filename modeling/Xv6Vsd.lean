import Xv6Vsd.Bio.Enough
import Xv6Vsd.Fs.Balloc
import Xv6Vsd.Fs.Directory
import Xv6Vsd.Fs.Lookup
import Xv6Vsd.Fs.Nlink
import Xv6Vsd.Fs.RawDisk
import Xv6Vsd.Icache.Mount
import Xv6Vsd.Icache.Unique
import Xv6Vsd.Io.Errors
import Xv6Vsd.Io.Mux
import Xv6Vsd.Io.Open
import Xv6Vsd.Io.Pipe
import Xv6Vsd.Io.Term
import Xv6Vsd.Log.Admission
import Xv6Vsd.Log.Crash
import Xv6Vsd.Malloc.Kernel
import Xv6Vsd.Malloc.User
import Xv6Vsd.Mkproto.Geometry
import Xv6Vsd.Mkproto.Links
import Xv6Vsd.Mkproto.Perms
import Xv6Vsd.Mkproto.Reader
import Xv6Vsd.Mkproto.Trim
import Xv6Vsd.Paging.Argv
import Xv6Vsd.Paging.Fork
import Xv6Vsd.Paging.Mapping
import Xv6Vsd.Paging.Pages
import Xv6Vsd.Paging.Unmap
import Xv6Vsd.Proc.Cpus
import Xv6Vsd.Proc.Fresh
import Xv6Vsd.Proc.Group
import Xv6Vsd.Proc.Kill
import Xv6Vsd.Proc.Lock
import Xv6Vsd.Proc.Mailbox
import Xv6Vsd.Proc.Relocate
import Xv6Vsd.Proc.Sleep
import Xv6Vsd.Proc.Spinlock
import Xv6Vsd.Proc.Threads
import Xv6Vsd.Proc.Wait
import Xv6Vsd.Proc.Wakeup
import Xv6Vsd.Sys.Balance
import Xv6Vsd.Sys.Errstr
import Xv6Vsd.Sys.Ownership
import Xv6Vsd.Sys.Perms
import Xv6Vsd.Sys.Seek
import Xv6Vsd.Sys.Ticks
import Xv6Vsd.Sys.Users
import Xv6Vsd.User.Grep
import Xv6Vsd.User.Mailbox
import Xv6Vsd.User.Marshal
import Xv6Vsd.User.Memmove
