import Mathlib.Data.Nat.Notation

/-!
# Kernel parameters

The constants of `kernel/param.h` and `kernel/fs.h`.
-/

namespace Xv6

/-- maximum number of processes -/
def NPROC : ℕ := 64

/-- open files per process -/
def NOFILE : ℕ := 16

/-- open files per system -/
def NFILE : ℕ := 100

/-- max exec arguments -/
def MAXARG : ℕ := 32

/-- maximum file path name -/
def MAXPATH : ℕ := 128

/-- user stack pages -/
def USERSTACK : ℕ := 1

/-- max # of blocks any FS op writes -/
def MAXOPBLOCKS : ℕ := 10

/-- max data blocks in on-disk log -/
def LOGBLOCKS : ℕ := MAXOPBLOCKS * 3

/-- size of disk block cache -/
def NBUF : ℕ := MAXOPBLOCKS * 3

/-- size of file system in blocks -/
def FSSIZE : ℕ := 2000

/-- device number of file system root disk -/
def ROOTDEV : ℕ := 1

/-- maximum number of active i-nodes -/
def NINODE : ℕ := 50

/-- maximum major device number -/
def NDEV : ℕ := 10

/-- root i-number -/
def ROOTINO : ℕ := 1

/-- block size -/
def BSIZE : ℕ := 1024

/-- direct addresses of an inode -/
def NDIRECT : ℕ := 12

/-- addresses in an indirect block, of four bytes each -/
def NINDIRECT : ℕ := BSIZE / 4

/-- blocks of a file -/
def MAXFILE : ℕ := NDIRECT + NINDIRECT

/-- inodes per block, of 64 bytes each -/
def IPB : ℕ := BSIZE / 64

/-- bitmap bits per block -/
def BPB : ℕ := BSIZE * 8

/-- characters in a name of a directory entry -/
def DIRSIZ : ℕ := 14

end Xv6
