/-
# The directory of a namespace

Names and contents are kept apart, as a POSIX file system keeps them: a directory
entry points at an inode, an open file holds the inode, and unlinking or renaming
an entry leaves the bytes an open file reads untouched. Three kinds of entry
exist: `data-<id>.log`, its `.tmp` twin while a merge writes it, and the blobs of
`values/`.
-/
import BeyondKv.Footer

namespace BeyondKv

open Std (ExtTreeMap)

structure Disk where
  /-- File contents by inode. -/
  inodes : Nat → Bytes
  /-- Every inode from here on is unused. -/
  nextIno : Nat
  /-- `data-<id>.log`. -/
  data : ExtTreeMap Nat Nat
  /-- Data files that were unlinked. No sync follows an unlink, so a crash may bring any
  of them back. -/
  unlinked : List (Nat × Nat)
  /-- `data-<id>.log.tmp`. -/
  tmp : ExtTreeMap Nat Nat
  /-- Whether `values/` exists. -/
  valuesDir : Bool
  /-- `values/blob-<hash>`. -/
  blobs : ExtTreeMap ContentHash Nat

/-- The `file` handle of a `LogFile`, with the id it was opened under. -/
structure LogFile where
  fileId : Nat
  ino : Nat
  deriving DecidableEq, Repr

namespace Disk

def empty : Disk :=
  { inodes := fun _ => [], nextIno := 0, data := ∅, unlinked := [], tmp := ∅
    valuesDir := false, blobs := ∅ }

def setBytes (d : Disk) (ino : Nat) (b : Bytes) : Disk :=
  { d with inodes := Function.update d.inodes ino b }

/-- `write_all_at` on an open file. -/
def writeAt (d : Disk) (ino off : Nat) (data : Bytes) : Disk :=
  d.setBytes ino (Bytes.writeAt (d.inodes ino) off data)

/-- `set_len` on an open file. -/
def setLen (d : Disk) (ino n : Nat) : Disk :=
  let b := d.inodes ino
  d.setBytes ino (b.take n ++ List.replicate (n - b.length) 0)

/-- `open` with `create`: the existing inode, or a new empty one. -/
def openCreateData (d : Disk) (id : Nat) : Nat × Disk :=
  match d.data[id]? with
  | some ino => (ino, d)
  | none =>
    (d.nextIno,
      { d with
        inodes := Function.update d.inodes d.nextIno []
        nextIno := d.nextIno + 1
        data := d.data.insert id d.nextIno })

def openCreateTmp (d : Disk) (id : Nat) : Nat × Disk :=
  match d.tmp[id]? with
  | some ino => (ino, d)
  | none =>
    (d.nextIno,
      { d with
        inodes := Function.update d.inodes d.nextIno []
        nextIno := d.nextIno + 1
        tmp := d.tmp.insert id d.nextIno })

/-- `unlink` of the data file `id`, which is `ino`. -/
def unlinkData (d : Disk) (id ino : Nat) : Disk :=
  { d with data := d.data.erase id, unlinked := (id, ino) :: d.unlinked }

/-- `list_data_files`: ascending by id; a `.tmp` name does not parse. -/
def listDataFiles (d : Disk) : List (Nat × Nat) := d.data.toList

/-- The contents of a blob. -/
def blob (d : Disk) (h : ContentHash) : Option Bytes := d.blobs[h]?.map d.inodes

theorem setBytes_self (d : Disk) (ino : Nat) : d.setBytes ino (d.inodes ino) = d := by
  simp [setBytes]

@[simp] theorem setBytes_setBytes (d : Disk) (ino : Nat) (b c : Bytes) :
    (d.setBytes ino b).setBytes ino c = d.setBytes ino c := by
  simp [setBytes]

@[simp] theorem inodes_setBytes (d : Disk) (ino : Nat) (b : Bytes) :
    (d.setBytes ino b).inodes ino = b := by
  simp [setBytes]

theorem inodes_setBytes_of_ne (d : Disk) {ino ino' : Nat} (b : Bytes) (h : ino' ≠ ino) :
    (d.setBytes ino b).inodes ino' = d.inodes ino' := by
  simp [setBytes, Function.update_of_ne h]

end Disk

end BeyondKv
