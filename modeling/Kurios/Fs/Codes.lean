/-!
The results of file system operations (`kernel/fs/vfs.h`).
-/

namespace Kurios.Errno

def vfsOk : Int := 0
def vfsEnoent : Int := -2
def vfsEio : Int := -5
def vfsEbadf : Int := -9
def vfsEnomem : Int := -12
def vfsEbusy : Int := -16
def vfsEexist : Int := -17
def vfsEnotdir : Int := -20
def vfsEisdir : Int := -21
def vfsEinval : Int := -22
def vfsEmfile : Int := -24
def vfsEnospc : Int := -28
def vfsEnotempty : Int := -39

end Kurios.Errno
