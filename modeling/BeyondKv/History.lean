/-
# What the writers log, and what a log means

The write paths append three kinds of record: a full record, a tombstone and an
expiry update. `LogOp` names them with the flags each writer sets, `Logged` adds
the revision and the size bound under which `encodeInto` succeeds.

`Table` is what a log is for: at each key, where its live record is and when it
expires. `Table.step` says what one record does to it, in terms of the operation
and not of its bytes; `table_applyRecord` is the refinement: replaying the bytes
of a record is one step of the table.
-/
import BeyondKv.Recover

namespace BeyondKv

/-- The value field of a full record: the value, or the hash of its blob. -/
inductive Stored where
  | inline (value : Bytes)
  | blob (hash : ContentHash)
  deriving DecidableEq

def Stored.bytes : Stored → Bytes
  | inline v => v
  | blob h => h.toList

/-- The `VALUE_SEP` bit `maybe_separate` sets. -/
def Stored.flag : Stored → UInt8
  | inline _ => 0
  | blob _ => flagValueSep

def Stored.hash? : Stored → Option ContentHash
  | inline _ => none
  | blob h => some h

inductive LogOp where
  | put (key : Bytes) (value : Stored) (metadata : Bytes) (expiresAtMs : Option UInt64)
  | tombstone (key : Bytes)
  | ttlUpdate (key : Bytes) (expiresAtMs : Option UInt64)

/-- `NO_EXPIRY` for an absent expiry. -/
def expiryFlag (expiresAtMs : Option UInt64) : UInt8 :=
  if expiresAtMs.isSome then 0 else flagNoExpiry

namespace LogOp

def key : LogOp → Bytes
  | put k _ _ _ => k
  | tombstone k => k
  | ttlUpdate k _ => k

def flags : LogOp → UInt8
  | put _ v _ x => expiryFlag x ||| v.flag
  | tombstone _ => flagTombstone
  | ttlUpdate _ x => flagTtlUpdate ||| expiryFlag x

def expires : LogOp → UInt64
  | put _ _ _ x => x.getD 0
  | tombstone _ => 0
  | ttlUpdate _ x => x.getD 0

def value : LogOp → Bytes
  | put _ v _ _ => v.bytes
  | _ => []

def metadata : LogOp → Bytes
  | put _ _ m _ => m
  | _ => []

end LogOp

/-- An operation with the revision it was logged under. -/
structure Logged where
  tstampMs : UInt64
  op : LogOp
  fits : headerLen + op.key.length + op.value.length + op.metadata.length ≤ u32Max

/-- The record an operation is logged as. -/
def Logged.toRec (l : Logged) : Rec where
  tstampMs := l.tstampMs
  flags := l.op.flags
  expiresAtMs := l.op.expires
  key := l.op.key
  value := l.op.value
  metadata := l.op.metadata
  fits := l.fits

/-! ## The table a log denotes -/

structure Live where
  entry : IndexEntry
  expiresAtMs : Option UInt64
  deriving DecidableEq

abbrev Table := Bytes → Option Live

/-- One logged operation whose record is `size` bytes at `offset` of file `fileId`. -/
def Table.step (t : Table) (fileId offset size : Nat) (l : Logged) : Table :=
  match l.op with
  | .put key _ _ expiresAtMs =>
    Function.update t key (some ⟨IndexEntry.new fileId offset size l.tstampMs, expiresAtMs⟩)
  | .tombstone key => Function.update t key none
  | .ttlUpdate key expiresAtMs =>
    Function.update t key ((t key).map fun live => { live with expiresAtMs })

/-- The fold of logged operations, the first at `offset`. -/
def Table.fold (P : Prims) (fileId : Nat) : Nat → List Logged → Table → Table
  | _, [], t => t
  | offset, l :: ls, t =>
    let size := (l.toRec.bytes P).length
    Table.fold P fileId (offset + size) ls (t.step fileId offset size l)

/-- What an index says about each key. -/
def NsIndex.table (idx : NsIndex) : Table :=
  fun k => (idx.get k).map fun e => ⟨e, idx.ttl k⟩

/-- The expiry sidecar holds live keys only. -/
def NsIndex.TtlLive (idx : NsIndex) : Prop := ∀ k, idx.get k = none → idx.ttl k = none

theorem NsIndex.TtlLive.ttl_eq {idx : NsIndex} (h : idx.TtlLive) (k : Bytes) :
    idx.ttl k = (idx.table k).bind Live.expiresAtMs := by
  cases hg : idx.get k with
  | none => simp [NsIndex.table, hg, h k hg]
  | some e => simp [NsIndex.table, hg]

theorem NsIndex.get_eq_table (idx : NsIndex) (k : Bytes) :
    idx.get k = (idx.table k).map Live.entry := by
  simp [NsIndex.table, Function.comp_def]

/-! ## Replaying a record is one step -/

section flags

theorem hasFlag_put (v : Stored) (x : Option UInt64) :
    hasFlag (expiryFlag x ||| v.flag) flagTombstone = false
      ∧ hasFlag (expiryFlag x ||| v.flag) flagTtlUpdate = false
      ∧ hasFlag (expiryFlag x ||| v.flag) flagNoExpiry = x.isNone
      ∧ hasFlag (expiryFlag x ||| v.flag) flagValueSep = v.hash?.isSome := by
  cases v <;> cases x <;>
    simp only [Stored.flag, expiryFlag, Stored.hash?, Option.isSome, Option.isNone] <;> decide

theorem hasFlag_tombstone : hasFlag flagTombstone flagTombstone = true := by decide

theorem hasFlag_ttlUpdate (x : Option UInt64) :
    hasFlag (flagTtlUpdate ||| expiryFlag x) flagTombstone = false
      ∧ hasFlag (flagTtlUpdate ||| expiryFlag x) flagTtlUpdate = true
      ∧ hasFlag (flagTtlUpdate ||| expiryFlag x) flagNoExpiry = x.isNone := by
  cases x <;> simp only [expiryFlag, Option.isSome, Option.isNone] <;> decide

end flags

namespace Logged
variable (P : Prims) (l : Logged)

theorem take_key_body : l.toRec.body.take (l.toRec.header P).keySize = l.op.key := by
  simp [Rec.body, Rec.header, toRec]

theorem keySize_le_body : ¬ l.toRec.body.length < (l.toRec.header P).keySize := by
  simp [Rec.body, Rec.header]

theorem length_bytes_le : ¬ (l.toRec.bytes P).length > u32Max :=
  Nat.not_lt.mpr (l.toRec.length_bytes_le P)

end Logged

theorem getD_expiry (x : Option UInt64) :
    (if x.isNone then none else some (x.getD 0)) = x := by
  cases x <;> rfl

theorem expiry_header_put (P : Prims) {l : Logged} {key m : Bytes} {v : Stored} {x : Option UInt64}
    (hop : l.op = .put key v m x) : (l.toRec.header P).expiry = x := by
  have hflags : (l.toRec.header P).flags = expiryFlag x ||| v.flag := by
    simp [Rec.header, Logged.toRec, hop, LogOp.flags]
  obtain ⟨-, -, hx, -⟩ := hasFlag_put v x
  rw [RecordHeader.expiry, hflags, hx]
  simp only [Rec.header, Logged.toRec, hop, LogOp.expires]
  exact getD_expiry x

/-- The index after a put's record is replayed: the entry, the expiry, and the blob hash
if it has one. A hash that was there before an inline value stays. -/
def NsIndex.replayPut (idx : NsIndex) (key : Bytes) (e : IndexEntry) (x : Option UInt64) :
    Stored → NsIndex
  | .inline _ => idx.insert key e x
  | .blob h => (idx.insert key e x).setValsep key (some h)

theorem applyRecord_put (P : Prims) (idx : NsIndex) (fileId offset : Nat) {l : Logged}
    {key : Bytes} {v : Stored} {m : Bytes} {x : Option UInt64} (hop : l.op = .put key v m x) :
    applyRecord idx fileId offset (l.toRec.header P) l.toRec.body
      = idx.replayPut key (IndexEntry.new fileId offset (l.toRec.bytes P).length l.tstampMs)
          x v := by
  have hkey : l.op.key = key := by rw [hop]; rfl
  have hflags : (l.toRec.header P).flags = expiryFlag x ||| v.flag := by
    simp [Rec.header, Logged.toRec, hop, LogOp.flags]
  obtain ⟨ht, hu, -, hv⟩ := hasFlag_put v x
  have hexp := expiry_header_put P hop
  unfold applyRecord
  rw [if_neg (l.keySize_le_body P)]
  simp only [l.take_key_body, hflags, ht, hu, hv, hexp, hkey, Bool.false_eq_true, if_false,
    Rec.recordLen_header, if_neg (l.length_bytes_le P)]
  cases v with
  | inline w => simp [Stored.hash?, NsIndex.replayPut, Rec.header, Logged.toRec]
  | blob h =>
    have hslice : Bytes.slice l.toRec.body (l.toRec.header P).keySize 16 = h.toList := by
      have := Bytes.slice_mid key h.toList m
      simpa [Rec.body, Rec.header, Logged.toRec, hop, LogOp.key, LogOp.value, Stored.bytes,
        LogOp.metadata] using this
    have hval : (l.toRec.header P).valSize = 16 := by
      simp [Rec.header, Logged.toRec, hop, LogOp.value, Stored.bytes]
    have hbody : (l.toRec.header P).keySize + (l.toRec.header P).valSize
        ≤ l.toRec.body.length := by
      simp [Rec.header, Rec.body]
    rw [if_pos ⟨rfl, hval, hbody⟩, hslice, FooterEntry.hashOfBytes_toList]
    rfl

theorem applyRecord_tombstone (P : Prims) (idx : NsIndex) (fileId offset : Nat) {l : Logged}
    {key : Bytes} (hop : l.op = .tombstone key) :
    applyRecord idx fileId offset (l.toRec.header P) l.toRec.body = (idx.remove key).2 := by
  have hkey : l.op.key = key := by rw [hop]; rfl
  have hflags : (l.toRec.header P).flags = flagTombstone := by
    simp [Rec.header, Logged.toRec, hop, LogOp.flags]
  unfold applyRecord
  rw [if_neg (l.keySize_le_body P)]
  simp only [l.take_key_body, hflags, hasFlag_tombstone, if_true, hkey]

theorem applyRecord_ttlUpdate (P : Prims) (idx : NsIndex) (fileId offset : Nat) {l : Logged}
    {key : Bytes} {x : Option UInt64} (hop : l.op = .ttlUpdate key x) :
    applyRecord idx fileId offset (l.toRec.header P) l.toRec.body
      = if (idx.get key).isSome then idx.setTtl key x else idx := by
  have hkey : l.op.key = key := by rw [hop]; rfl
  have hflags : (l.toRec.header P).flags = flagTtlUpdate ||| expiryFlag x := by
    simp [Rec.header, Logged.toRec, hop, LogOp.flags]
  obtain ⟨ht, hu, hx⟩ := hasFlag_ttlUpdate x
  have hexp : (l.toRec.header P).expiry = x := by
    rw [RecordHeader.expiry, hflags, hx]
    simp only [Rec.header, Logged.toRec, hop, LogOp.expires]
    exact getD_expiry x
  unfold applyRecord
  rw [if_neg (l.keySize_le_body P)]
  simp only [l.take_key_body, hflags, ht, hu, hexp, hkey, Bool.false_eq_true, if_false, if_true]

section table
variable (P : Prims) (idx : NsIndex) (fileId offset : Nat) (l : Logged)

@[simp] theorem get_replayPut (key k : Bytes) (e : IndexEntry) (x : Option UInt64) (v : Stored) :
    (idx.replayPut key e x v).get k = if key = k then some e else idx.get k := by
  cases v <;> simp [NsIndex.replayPut]

@[simp] theorem ttl_replayPut (key k : Bytes) (e : IndexEntry) (x : Option UInt64) (v : Stored) :
    (idx.replayPut key e x v).ttl k = if key = k then x else idx.ttl k := by
  cases v <;> simp [NsIndex.replayPut]

/-- Replaying the bytes of a logged operation is one step of the table. -/
theorem table_applyRecord :
    (applyRecord idx fileId offset (l.toRec.header P) l.toRec.body).table
      = idx.table.step fileId offset (l.toRec.bytes P).length l := by
  funext k
  cases hop : l.op with
  | put key v m x =>
    rw [applyRecord_put P idx fileId offset hop]
    by_cases hk : key = k
    · subst hk; simp [NsIndex.table, Table.step, hop]
    · simp [NsIndex.table, Table.step, hop, hk, Function.update_of_ne (Ne.symm hk)]
  | tombstone key =>
    rw [applyRecord_tombstone P idx fileId offset hop]
    by_cases hk : key = k
    · subst hk; simp [NsIndex.table, Table.step, hop]
    · simp [NsIndex.table, Table.step, hop, hk, Function.update_of_ne (Ne.symm hk)]
  | ttlUpdate key x =>
    rw [applyRecord_ttlUpdate P idx fileId offset hop]
    by_cases hk : key = k
    · subst hk
      cases hg : idx.get key <;> simp [NsIndex.table, Table.step, hop, hg]
    · cases hg : idx.get key <;>
        simp [NsIndex.table, Table.step, hop, hg, hk, Function.update_of_ne (Ne.symm hk)]

theorem ttlLive_applyRecord (h : idx.TtlLive) :
    (applyRecord idx fileId offset (l.toRec.header P) l.toRec.body).TtlLive := by
  intro k hk
  cases hop : l.op with
  | put key v m x =>
    rw [applyRecord_put P idx fileId offset hop] at hk ⊢
    by_cases hkey : key = k
    · simp [hkey] at hk
    · simp only [get_replayPut, ttl_replayPut, if_neg hkey] at hk ⊢
      exact h k hk
  | tombstone key =>
    rw [applyRecord_tombstone P idx fileId offset hop] at hk ⊢
    by_cases hkey : key = k
    · simp [hkey]
    · simp only [NsIndex.get_remove, NsIndex.ttl_remove, if_neg hkey] at hk ⊢
      exact h k hk
  | ttlUpdate key x =>
    rw [applyRecord_ttlUpdate P idx fileId offset hop] at hk ⊢
    cases hg : idx.get key with
    | none => simp only [hg, Option.isSome_none, Bool.false_eq_true, if_false] at hk ⊢; exact h k hk
    | some e =>
      simp only [hg, Option.isSome_some, if_true, NsIndex.get_setTtl, NsIndex.ttl_setTtl] at hk ⊢
      have hkey : key ≠ k := by rintro rfl; simp [hg] at hk
      rw [if_neg hkey]
      exact h k hk

/-- A whole replay is the fold of the logged operations. -/
theorem table_applyRecs (ls : List Logged) :
    (applyRecs P fileId offset (ls.map Logged.toRec) idx).table
      = Table.fold P fileId offset ls idx.table := by
  induction ls generalizing offset idx with
  | nil => rfl
  | cons l ls ih => rw [List.map_cons, applyRecs, ih, table_applyRecord, Table.fold]

theorem ttlLive_applyRecs (ls : List Logged) (h : idx.TtlLive) :
    (applyRecs P fileId offset (ls.map Logged.toRec) idx).TtlLive := by
  induction ls generalizing offset idx with
  | nil => exact h
  | cons l ls ih => exact ih _ _ (ttlLive_applyRecord P idx fileId offset l h)

end table

theorem ttlLive_empty : NsIndex.empty.TtlLive := fun k _ => NsIndex.ttl_empty k

end BeyondKv
