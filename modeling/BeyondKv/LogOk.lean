/-
# The invariant of a namespace log

Between two operations a log is in order when its files and index are (`FilesOk`),
the sealed files have lower ids than the active one, and the active file's write
offset is its length (`LogOk`).

`Core` is the part of the state this talks about, so that a step which only
touches clocks, counters or locks keeps it by definition. `Change` lists what an
operation can do to the core; every operation but `reclaim`, `flush` and a
restart is a sequence of such changes, and each of them keeps `LogOk`.
-/
import BeyondKv.Files
import BeyondKv.Sequential

namespace BeyondKv

open Std (ExtTreeMap)

/-- The directory, the handles and the index. -/
structure Core where
  fault : Nat → Option Nat
  ring : List PendingWrite
  disk : Disk
  index : NsIndex
  sealed : ExtTreeMap Nat LogFile
  active : LogFile
  cells : Nat → FileCell

def NsState.core (s : NsState) : Core :=
  { fault := s.fault, ring := s.ring, disk := s.disk, index := s.index, sealed := s.sealed
    active := s.active, cells := s.cells }

/-- What a write path borrows and gives back. -/
structure Locks where
  clock : Nat → UInt64
  config : LogConfig
  reclaimInProgress : Bool
  rotateInProgress : Bool
  frozen : Bool
  inFlightWrites : Nat
  writeStripes : Nat → Bool
  fileLocks : Nat → Bool

def NsState.locks (s : NsState) : Locks :=
  { clock := s.clock, config := s.config, reclaimInProgress := s.reclaimInProgress
    rotateInProgress := s.rotateInProgress, frozen := s.frozen
    inFlightWrites := s.inFlightWrites, writeStripes := s.writeStripes
    fileLocks := s.fileLocks }

/-- No lock is held and nothing is in progress: the state between two operations. -/
structure Locks.Free (l : Locks) : Prop where
  reclaim : l.reclaimInProgress = false
  rotate : l.rotateInProgress = false
  frozen : l.frozen = false
  inFlight : l.inFlightWrites = 0
  stripes : ∀ i, l.writeStripes i = false
  fileLocks : ∀ i, l.fileLocks i = false

namespace Core

/-- Every open data file. -/
def handles (c : Core) : ExtTreeMap Nat LogFile := c.sealed.insert c.active.fileId c.active

/-- The contents of the active file. -/
def activeBytes (c : Core) : Bytes := c.disk.inodes c.active.ino

/-! ## Changes -/

/-- `buf` at the end of the active file. -/
def appendActive (c : Core) (buf : Bytes) : Core :=
  { c with
    disk := c.disk.setBytes c.active.ino (c.activeBytes ++ buf)
    cells := Function.update c.cells c.active.ino ⟨(c.activeBytes ++ buf).length, false⟩ }

def setIndex (c : Core) (index : NsIndex) : Core := { c with index }

def setDisk (c : Core) (d : Disk) : Core := { c with disk := d }

/-- The entry of a record of `size` bytes that is appended next. -/
def nextEntry (c : Core) (size : Nat) (tstampMs : UInt64) : IndexEntry :=
  IndexEntry.new c.active.fileId c.activeBytes.length size tstampMs

/-- A put: its record, then its index entry. -/
def put (P : Prims) (c : Core) (l : Logged) (key : Bytes) (v : Stored) (x : Option UInt64) : Core :=
  (c.appendActive (l.toRec.bytes P)).setIndex
    ((c.index.insert key (c.nextEntry (l.toRec.bytes P).length l.tstampMs) x).setValsep key v.hash?)

/-- A logged put. -/
def putLogged (P : Prims) (c : Core) (l : Logged) : Core :=
  match l.op with
  | .put key v _ x => c.put P l key v x
  | _ => c

/-- Logged puts, one after another. -/
def putAll (P : Prims) (c : Core) (ls : List Logged) : Core := ls.foldl (putLogged P) c

/-- The footer of the active file is written. -/
def footered (P : Prims) (c : Core) : Core :=
  c.appendActive (footerBytes P (footerOf c.index c.active.fileId))

/-- The active file is among the sealed ones. -/
def sealActive (c : Core) : Core := { c with sealed := c.sealed.insert c.active.fileId c.active }

/-- A new, empty file `id` is active. -/
def activated (c : Core) (id : Nat) : Core :=
  { c with
    disk := (c.disk.openCreateData id).2
    active := ⟨id, c.disk.nextIno⟩
    cells := Function.update c.cells c.disk.nextIno ⟨0, false⟩ }

end Core

/-- What a change is about. -/
inductive Label where
  | put (l : Logged)
  | forget
  | tombstone (l : Logged)
  | ttl (l : Logged)
  | blobs
  | footer
  | rotate

/-- What the operations do to the core. -/
inductive Change (P : Prims) (c : Core) : Label → Core → Prop
  | put {l : Logged} {key m : Bytes} {v : Stored} {x : Option UInt64}
      (hop : l.op = .put key v m x)
      (hsize : (c.activeBytes ++ l.toRec.bytes P).length ≤ maxFileSize) :
      Change P c (.put l) (c.put P l key v x)
  /-- A delete that finds nothing drops what is left of the key's sidecar entries. -/
  | forget {key : Bytes} (hnone : c.index.get key = none) :
      Change P c .forget (c.setIndex (c.index.remove key).2)
  | tombstone {l : Logged} {key : Bytes} (hop : l.op = .tombstone key)
      (hsize : (c.activeBytes ++ l.toRec.bytes P).length ≤ maxFileSize) :
      Change P c (.tombstone l)
        ((c.appendActive (l.toRec.bytes P)).setIndex (c.index.remove key).2)
  | ttl {l : Logged} {key : Bytes} {x : Option UInt64} (hop : l.op = .ttlUpdate key x)
      (hsize : (c.activeBytes ++ l.toRec.bytes P).length ≤ maxFileSize) :
      Change P c (.ttl l) ((c.appendActive (l.toRec.bytes P)).setIndex (c.index.setTtl key x))
  | blobs {d : Disk} (hs : SideStep c.disk d) : Change P c .blobs (c.setDisk d)
  /-- A rotation that ran out of file ids stops after the footer. -/
  | footer (hsize : (c.footered P).activeBytes.length ≤ maxFileSize)
      (hlast : u32Max < c.active.fileId + 1) : Change P c .footer (c.footered P)
  | rotate (hsize : (c.footered P).activeBytes.length ≤ maxFileSize)
      (hid : c.active.fileId + 1 ≤ u32Max) :
      Change P c .rotate ((c.footered P).sealActive.activated (c.active.fileId + 1))

structure LogOk (P : Prims) (c : Core) : Prop where
  fault : ∀ n, c.fault n = none
  ring : c.ring = []
  files : FilesOk P c.handles c.sealed c.disk c.index
  below : ∀ {id : Nat} {f : LogFile}, c.sealed[id]? = some f → id < c.active.fileId
  idMax : c.active.fileId ≤ u32Max
  tight : c.cells c.active.ino = ⟨c.activeBytes.length, false⟩

/-! ## Handles -/

section handles
variable {P : Prims} (c : Core)

theorem handles_active : c.handles[c.active.fileId]? = some c.active := by
  simp [Core.handles]

theorem handles_cases {id : Nat} {f : LogFile} (h : c.handles[id]? = some f) :
    (id = c.active.fileId ∧ f = c.active) ∨ (id ≠ c.active.fileId ∧ c.sealed[id]? = some f) := by
  simp only [Core.handles, ExtTreeMap.getElem?_insert] at h
  by_cases hid : c.active.fileId = id
  · simp [hid] at h; exact .inl ⟨hid.symm, h.symm⟩
  · simp [hid] at h; exact .inr ⟨fun h => hid h.symm, h⟩

variable {c}

theorem LogOk.active_open (h : LogOk P c) : c.sealed[c.active.fileId]? = none := by
  cases hs : c.sealed[c.active.fileId]? with
  | none => rfl
  | some f => exact absurd (h.below hs) (Nat.lt_irrefl _)

/-- No data file has an id above the active one's. -/
theorem LogOk.unused_above (h : LogOk P c) {id : Nat} (hid : c.active.fileId < id) :
    c.handles[id]? = none := by
  cases hf : c.handles[id]? with
  | none => rfl
  | some f =>
    rcases handles_cases c hf with ⟨rfl, -⟩ | ⟨-, hs⟩
    · exact absurd hid (Nat.lt_irrefl _)
    · exact absurd (h.below hs) (Nat.lt_asymm hid)

end handles

/-! ## Each change keeps the log in order -/

section changes
variable {P : Prims} {c : Core}

theorem LogOk.appendActive (h : LogOk P c) {buf : Bytes}
    (hsize : (c.activeBytes ++ buf).length ≤ maxFileSize) : LogOk P (c.appendActive buf) where
  fault := h.fault
  ring := h.ring
  files := h.files.append (handles_active c) h.active_open hsize
  below := h.below
  idMax := h.idMax
  tight := by simp [Core.appendActive, Core.activeBytes]

/-- A new index whose entries resolve. -/
theorem LogOk.setIndex (h : LogOk P c) {index : NsIndex}
    (hres : ∀ {k : Bytes} {e : IndexEntry}, index.get k = some e →
      ∃ f, c.handles[e.fileId]? = some f
        ∧ RecAt P (c.disk.inodes f.ino) k e (index.valsep k)) :
    LogOk P (c.setIndex index) where
  fault := h.fault
  ring := h.ring
  files := h.files.setIndex hres
  below := h.below
  idMax := h.idMax
  tight := h.tight

theorem LogOk.put (h : LogOk P c) {l : Logged} {key m : Bytes} {v : Stored} {x : Option UInt64}
    (hop : l.op = .put key v m x)
    (hsize : (c.activeBytes ++ l.toRec.bytes P).length ≤ maxFileSize) :
    LogOk P (c.put P l key v x) := by
  have happ := h.appendActive hsize
  refine happ.setIndex ?_
  intro k e hk
  by_cases hkey : key = k
  · subst hkey
    simp only [NsIndex.get_setValsep, NsIndex.get_insert, if_true, Option.some.injEq] at hk
    subst hk
    refine ⟨c.active, handles_active c, ?_⟩
    simp only [Core.appendActive, Disk.inodes_setBytes, NsIndex.valsep_setValsep, if_true]
    exact RecAt.last P c.activeBytes c.active.fileId hop
  · simp only [NsIndex.get_setValsep, NsIndex.get_insert, if_neg hkey] at hk
    obtain ⟨f, hf, hr⟩ := happ.files.resolves hk
    refine ⟨f, hf, ?_⟩
    rw [NsIndex.valsep_setValsep, if_neg hkey, NsIndex.valsep_insert]
    exact hr

theorem LogOk.putLogged (h : LogOk P c) {l : Logged}
    (hsize : (c.activeBytes ++ l.toRec.bytes P).length ≤ maxFileSize) :
    LogOk P (c.putLogged P l) := by
  unfold Core.putLogged
  split
  · rename_i hop; exact h.put hop hsize
  · exact h

theorem putLogged_active (c : Core) (l : Logged) : (c.putLogged P l).active = c.active := by
  unfold Core.putLogged
  split <;> rfl

theorem putAll_active (c : Core) (ls : List Logged) : (c.putAll P ls).active = c.active := by
  induction ls generalizing c with
  | nil => rfl
  | cons l ls ih => exact (ih (c.putLogged P l)).trans (putLogged_active c l)

/-- A put adds its record to the active file; nothing else is a logged put. -/
theorem activeBytes_putLogged (c : Core) (l : Logged) :
    (c.putLogged P l).activeBytes = c.activeBytes ++ l.toRec.bytes P
      ∨ (c.putLogged P l).activeBytes = c.activeBytes := by
  unfold Core.putLogged
  split
  · exact .inl (by simp [Core.put, Core.setIndex, Core.appendActive, Core.activeBytes])
  · exact .inr rfl

theorem LogOk.putAll {ls : List Logged} {c : Core} (h : LogOk P c)
    (hsize : (c.activeBytes ++ logBytes P ls).length ≤ maxFileSize) : LogOk P (c.putAll P ls) := by
  induction ls generalizing c with
  | nil => exact h
  | cons l ls ih =>
    rw [logBytes_cons] at hsize
    simp only [List.length_append] at hsize
    refine ih (c := c.putLogged P l) (h.putLogged ?_) ?_
    · rw [List.length_append]; omega
    · rcases activeBytes_putLogged c l with heq | heq <;> rw [heq] <;>
        simp only [List.length_append] <;> omega

theorem LogOk.remove (h : LogOk P c) (key : Bytes) :
    LogOk P (c.setIndex (c.index.remove key).2) := by
  refine h.setIndex ?_
  intro k e hk
  by_cases hkey : key = k
  · simp [hkey] at hk
  · simp only [NsIndex.get_remove, if_neg hkey] at hk
    obtain ⟨f, hf, hr⟩ := h.files.resolves hk
    exact ⟨f, hf, by simpa [hkey] using hr⟩

theorem LogOk.setTtl (h : LogOk P c) (key : Bytes) (x : Option UInt64) :
    LogOk P (c.setIndex (c.index.setTtl key x)) := by
  refine h.setIndex ?_
  intro k e hk
  rw [NsIndex.get_setTtl] at hk
  obtain ⟨f, hf, hr⟩ := h.files.resolves hk
  exact ⟨f, hf, by simpa using hr⟩

theorem LogOk.blobs (h : LogOk P c) {d : Disk} (hs : SideStep c.disk d) :
    LogOk P (c.setDisk d) where
  fault := h.fault
  ring := h.ring
  files := h.files.sideStep hs
  below := h.below
  idMax := h.idMax
  tight := by
    have hsame := hs.inodes (h.files.dir.logs_of_handle (handles_active c))
    simp only [Core.activeBytes, Core.setDisk, hsame]
    exact h.tight

/-- A footer, and a fresh active file above it. -/
theorem LogOk.rotate (h : LogOk P c) (hsize : (c.footered P).activeBytes.length ≤ maxFileSize)
    (hid : c.active.fileId + 1 ≤ u32Max) :
    LogOk P ((c.footered P).sealActive.activated (c.active.fileId + 1)) := by
  have hsize' : (c.activeBytes ++ footerBytes P (footerOf c.index c.active.fileId)).length
      ≤ maxFileSize := by simpa [Core.footered, Core.appendActive, Core.activeBytes] using hsize
  have hsealed := h.files.seal (handles_active c) h.active_open hsize'
  have hnew : c.handles[c.active.fileId + 1]? = none := h.unused_above (Nat.lt_succ_self _)
  have hlink :=
    (hsealed.sideStep hsealed.dir.tmpStep_alloc.toSideStep).link hsealed.dir.unused_alloc
    (by simp [Disk.alloc]) hnew
  have hdata : (c.footered P).disk.data[c.active.fileId + 1]? = none := by
    have := hsealed.dir.map (c.active.fileId + 1)
    rw [hnew] at this
    exact this
  refine ⟨h.fault, h.ring, ?_, ?_, hid, ?_⟩
  · simp only [Core.activated, Core.sealActive, openCreateData_new hdata]
    exact hlink
  · intro id f hs
    change (c.sealed.insert c.active.fileId c.active)[id]? = some f at hs
    change id < c.active.fileId + 1
    by_cases heq : c.active.fileId = id
    · omega
    · simp [ExtTreeMap.getElem?_insert, heq] at hs
      exact Nat.lt_succ_of_lt (h.below hs)
  · simp [Core.activated, Core.sealActive, Core.activeBytes, openCreateData_new hdata, Disk.link,
      Disk.alloc]

theorem Change.logOk {lbl : Label} {c' : Core} (hc : Change P c lbl c') (h : LogOk P c) :
    LogOk P c' := by
  cases hc with
  | put hop hsize => exact h.put hop hsize
  | forget _ => exact h.remove _
  | tombstone _ hsize => exact (h.appendActive hsize).remove _
  | ttl _ hsize => exact (h.appendActive hsize).setTtl _ _
  | blobs hs => exact h.blobs hs
  | footer hsize _ =>
    exact h.appendActive (by simpa [Core.footered, Core.appendActive, Core.activeBytes] using hsize)
  | rotate hsize hid => exact h.rotate hsize hid

end changes

end BeyondKv
