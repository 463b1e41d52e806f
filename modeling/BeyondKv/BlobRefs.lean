/-
# References to blobs

The blob store counts, for each content hash, the keys of the index whose value is the blob.
A write takes its reference before its record is in the log and hands it to the index when it
commits; a delete takes the entry out of the index first and gives the reference back when its
record is in the log. In between the reference is in the hands of the call (`Account.held`),
and the books balance: count = keys of the index + references in hand (`Balanced`).

A call that fails ought to end with nothing in its hands. Two failures do not:

* a write that has put a value into the blob store and then cannot encode its record, or, in a
  batch, cannot store a later value, returns at once;
* a delete that cannot append its tombstone returns at once, and the reference of the entry it
  has taken out of the index goes with it.

`Progress.loses` tells these from the failures that are undone; `blob_counts_exact_iff` says
that in every run, with any faults of the disk, the counts are exact once all calls have ended
if and only if no call has failed in one of these ways.
-/
import BeyondKv.BlobCounts
import BeyondKv.Conditional

namespace BeyondKv

open Async Multiset

/-! ## Calls and their marks -/

def EngineError.isIo : EngineError → Bool
  | .io _ => true
  | _ => false

/-- How far a call has come. -/
structure Progress where
  /-- The values it has handed to the blob store, the last one perhaps in vain. -/
  stored : Nat
  /-- Its records are encoded and it turns to the file. -/
  reserved : Bool
  /-- The blob of the entry that it has taken out of the index. -/
  removed : Option ContentHash
  deriving DecidableEq

def Progress.fresh : Progress := ⟨0, false, none⟩

/-- What a mark says about the call that sets it in `s`. -/
def Progress.pass (s : NsState) (p : Progress) : Point → Progress
  | .drops (.blob _) => { p with stored := p.stored + 1 }
  | .reserve => { p with reserved := true }
  | .effect [.del k] => { p with removed := s.index.valsep k }
  | _ => p

/-- A call that fails here with this error leaves references behind. An I/O error before the
append is that of the value handed over last, whose reference has been given back. -/
def Progress.loses (p : Progress) (e : EngineError) : Bool :=
  p.removed.isSome || (!p.reserved && decide ((if e.isIo then 1 else 0) < p.stored))

/-- A call that returns `r` has accounted for its references. -/
def Progress.accounts {α : Type} (p : Progress) : Except EngineError α → Bool
  | .ok _ => true
  | .error e => !p.loses e

/-- What is recorded of a run. -/
structure Audit where
  progress : Nat → Progress
  /-- No call has ended that left references behind. -/
  intact : Bool

def Audit.start : Audit := ⟨fun _ => .fresh, true⟩

def Audit.note (l : Nat × (Point ⊕ Stage)) (s : NsState) (g : Audit) : Audit :=
  match l.2 with
  | .inl mark =>
    { g with progress := Function.update g.progress l.1 ((g.progress l.1).pass s mark) }
  | .inr .started => g
  | .inr (.finished r) => { g with intact := g.intact && (g.progress l.1).accounts r }

/-- Runs on the record. -/
abbrev auditing : Discipline NsState (Nat × (Point ⊕ Stage)) Audit := .record Audit.note

/-! ## The books -/

/-- What a call answers for. -/
structure Account where
  progress : Progress
  /-- The references in its hands. -/
  held : Multiset ContentHash

def Account.fresh : Account := ⟨.fresh, 0⟩

/-- The references in the hands of calls. -/
def inHand (M : Multiset (Nat × Account)) : Multiset ContentHash := (M.map fun x => x.2.held).sum

/-- Counts are keys of the index, references in hand, and references left behind. -/
structure Balanced (M : Multiset (Nat × Account)) (g : Audit) (s : NsState) : Prop where
  ids : (M.map Prod.fst).Nodup
  mine : ∀ x ∈ M, g.progress x.1 = x.2.progress
  paired : s.index.Paired
  books : ∃ lost : Multiset ContentHash, (lost = 0 ↔ g.intact = true)
    ∧ ∀ h, ValueStore.refcount s h
      = (s.index.holders h).card + (inHand M).count h + lost.count h

section balanced
variable {M f : Multiset (Nat × Account)} {g g' : Audit} {s s' : NsState} {i : Nat} {a b : Account}

theorem inHand_own (h : ContentHash) :
    (inHand ({(i, a)} + f)).count h = a.held.count h + (inHand f).count h := by
  simp [inHand]

/-- The part of the state the books are about. -/
def bookView (s : NsState) : NsIndex × Std.ExtTreeMap ContentHash Nat := (s.index, s.refs)

theorem Balanced.same (h : Balanced M g s) (hs : Same bookView s s') : Balanced M g s' := by
  obtain ⟨hi, hr⟩ : s'.index = s.index ∧ s'.refs = s.refs := by simpa [Same, bookView] using hs
  refine ⟨h.ids, h.mine, by rw [hi]; exact h.paired, ?_⟩
  obtain ⟨lost, hlost, hcount⟩ := h.books
  exact ⟨lost, hlost, fun c => by rw [ValueStore.refcount, hr, hi]; exact hcount c⟩

theorem Balanced.self (h : Balanced ({(i, a)} + f) g s) : g.progress i = a.progress :=
  h.mine (i, a) (by simp)

theorem Balanced.other (h : Balanced ({(i, a)} + f) g s) {x : Nat × Account} (hx : x ∈ f) :
    x.1 ≠ i := by
  have hn := h.ids
  rw [Multiset.map_add, map_singleton, singleton_add, nodup_cons] at hn
  exact fun he => hn.1 (mem_map.mpr ⟨x, hx, he⟩)

/-- A reference in hand is counted. -/
theorem Balanced.counted (h : Balanced ({(i, a)} + f) g s) (c : ContentHash) :
    (s.index.holders c).card + a.held.count c ≤ ValueStore.refcount s c := by
  obtain ⟨lost, -, hcount⟩ := h.books
  rw [hcount c, inHand_own]
  omega

/-- A call moves on, and its hands and the index account for every change of a count. -/
theorem Balanced.own (h : Balanced ({(i, a)} + f) g s)
    (hmine : g'.progress = Function.update g.progress i b.progress) (hintact : g'.intact = g.intact)
    (hpaired : s'.index.Paired)
    (hcounts : ∀ c, ValueStore.refcount s' c + (s.index.holders c).card + a.held.count c
      = ValueStore.refcount s c + (s'.index.holders c).card + b.held.count c) :
    Balanced ({(i, b)} + f) g' s' := by
  refine ⟨by simpa using h.ids, fun x hx => ?_, hpaired, ?_⟩
  · rw [hmine]
    rcases mem_add.mp hx with hx | hx
    · rw [mem_singleton.mp hx, Function.update_self]
    · rw [Function.update_of_ne (h.other hx)]
      exact h.mine x (mem_add.mpr (.inr hx))
  · obtain ⟨lost, hlost, hcount⟩ := h.books
    refine ⟨lost, by rw [hintact]; exact hlost, fun c => ?_⟩
    have hold := hcount c
    have hnew := hcounts c
    rw [inHand_own] at hold ⊢
    omega

/-- References pass between a call, the index and the store. -/
theorem Balanced.move (h : Balanced ({(i, a)} + f) g s) {held : Multiset ContentHash}
    (hpaired : s'.index.Paired)
    (hcounts : ∀ c, ValueStore.refcount s' c + (s.index.holders c).card + a.held.count c
      = ValueStore.refcount s c + (s'.index.holders c).card + held.count c) :
    Balanced ({(i, { a with held })} + f) g s' := by
  refine h.own ?_ rfl hpaired hcounts
  rw [← h.self, Function.update_eq_self]

/-- A mark moves the call on. -/
theorem Balanced.pass (h : Balanced ({(i, a)} + f) g s) (l : Point) :
    Balanced ({(i, { a with progress := a.progress.pass s l })} + f)
        (Audit.note (i, .inl l) s g) s := by
  refine h.own ?_ rfl h.paired fun c => rfl
  rw [← h.self]
  rfl

/-- The call has ended; what is in its hands is left behind. -/
theorem Balanced.finish {r : Except EngineError (List UInt64)} (h : Balanced ({(i, a)} + f) g s)
    (hr : a.held = 0 ↔ a.progress.accounts r = true) :
    Balanced f (Audit.note (i, .inr (.finished r)) s g) s := by
  refine ⟨?_, fun x hx => h.mine x (mem_add.mpr (.inr hx)), h.paired, ?_⟩
  · exact nodup_of_le (map_le_map (Multiset.le_add_left _ _)) h.ids
  · obtain ⟨lost, hlost, hcount⟩ := h.books
    refine ⟨lost + a.held, ?_, fun c => ?_⟩
    · show _ ↔ (g.intact && (g.progress i).accounts r) = true
      rw [h.self, Bool.and_eq_true, ← hr, ← hlost, add_eq_zero]
    · have hold := hcount c
      rw [inHand_own] at hold
      rw [count_add]
      omega

end balanced

/-! ## Code that leaves the books alone -/

abbrev balanced : Regime NsState (Nat × (Point ⊕ Stage)) Audit (Nat × Account) :=
  .plain auditing Balanced

/-- The regime as the code of the log sees it when the call `i` runs it. -/
abbrev balancedBy (i : Nat) : Regime NsState Point Audit (Nat × Account) :=
  balanced.via fun l => (i, .inl l)

instance : BlindIo bookView where
  io _ _ _ _ _ := rfl
  files _ _ _ _ := rfl

instance : BlindActive bookView := ⟨fun _ _ _ => rfl⟩

instance : BlindStripes bookView := ⟨fun _ _ => rfl⟩

instance : BlindBlobs bookView := ⟨fun _ _ => rfl⟩

instance : BlindGate bookView := ⟨fun _ _ _ => rfl⟩

instance : BlindStamp bookView := ⟨fun _ _ _ => rfl⟩

/-- A mark that is not put on the record. -/
def OffRecord (l : Point) : Prop := ∀ s p, Progress.pass s p l = p

instance : HasAcquire OffRecord := ⟨fun _ _ _ => rfl, fun _ _ _ => rfl, fun _ _ _ => rfl⟩

instance : HasWrite OffRecord := ⟨fun _ _ _ _ => rfl, fun _ _ => rfl⟩

instance : Has .sync OffRecord where
  mem l hl := by cases l <;> first | exact fun _ _ => rfl | cases hl

theorem offRecord_batch (pairs : List (Bytes × Bytes)) (items : List BatchItem) :
    OffRecord (.effect (batchEffects pairs items)) := by
  intro s p
  cases pairs with
  | nil => rfl
  | cons pair pairs => cases items <;> rfl

theorem offRecord_drops {r : Resource} (hr : ∀ n, r ≠ .blob n) : OffRecord (.drops r) := by
  intro s p
  cases r with
  | blob n => exact absurd rfl (hr n)
  | _ => rfl

section rules
variable {α β : Type} {i : Nat} {a : Account}

/-- The call's hands stay as they are. -/
abbrev Unmoved (i : Nat) (a : Account) (p : Task α) : Prop :=
  Triple (balancedBy i) {(i, a)} p (Owning {(i, a)})

theorem Balanced.offRecord {M : Multiset (Nat × Account)} {g : Audit} {s : NsState} {l : Point}
    (h : Balanced M g s) (hl : OffRecord l) : Balanced M (Audit.note (i, .inl l) s g) s := by
  have hnote : Audit.note (i, .inl l) s g = g := by
    simp only [Audit.note, hl s, Function.update_eq_self]
  rw [hnote]
  exact h

theorem Unmoved.calm {p : Task α} (hp : Calm OffRecord bookView p) : Unmoved i a p :=
  Triple.within (fun _ hl _ _ _ h => h.offRecord hl) (fun _ _ _ => trivial)
    (fun _ _ _ _ h hs => h.same hs) hp

/-- A step that leaves the hands alone; if it fails, so does the call. -/
theorem Unmoved.then {p : Act α} {k : α → Act β}
    {post : Except EngineError β → Multiset (Nat × Account) → Prop}
    (hp : Unmoved i a p.run) (he : ∀ e, post (.error e) {(i, a)})
    (hk : ∀ x, Triple (balancedBy i) {(i, a)} (k x).run post) :
    Triple (balancedBy i) {(i, a)} (p >>= k).run post := Triple.run_after hp hk he

/-- A step that leaves the hands alone and cannot fail. -/
theorem Unmoved.first {p : Task α} {k : α → Act β}
    {post : Except EngineError β → Multiset (Nat × Account) → Prop}
    (hp : Calm OffRecord bookView p) (hk : ∀ x, Triple (balancedBy i) {(i, a)} (k x).run post) :
    Triple (balancedBy i) {(i, a)} (lift p >>= k).run post := by
  refine Triple.run_lift_seq (Unmoved.calm hp) ?_
  rintro x own rfl
  exact hk x

theorem books_pass (l : Point) :
    Triple (balancedBy i) {(i, a)} (Prog.at_ l) fun _ own =>
      ∃ s, own = {(i, { a with progress := a.progress.pass s l })} :=
  fun _ _ s h _ => ⟨_, h.pass l, s, rfl⟩

/-- A guard whose release is off the record. -/
theorem books_offRecord {rs : List Resource} {release : NsState → NsState} {body : Act α}
    {post : Except EngineError α → Multiset (Nat × Account) → Prop}
    (hrs : ∀ r ∈ rs, ∀ n, r ≠ .blob n)
    (hrel : ∀ s, Same bookView s (release s)) (hpost : ∀ r own, post r own → ∃ b, own = {(i, b)})
    (hb : Triple (balancedBy i) {(i, a)} body.run post) :
    Triple (balancedBy i) {(i, a)} (guarded rs release body).run post := by
  refine Triple.seq hb fun r own hr => ?_
  obtain ⟨b, rfl⟩ := hpost r own hr
  refine Triple.seq (Unmoved.calm (Prog.within_modify hrel)) ?_
  rintro _ own rfl
  refine Triple.seq (Unmoved.calm (calm_dropAll fun r hr => offRecord_drops (hrs r hr))) ?_
  rintro _ own rfl
  exact .ret hr

end rules

/-! ## Taking and giving back -/

/-- A value has been handed to the blob store. -/
def Account.handOver (a : Account) : Account :=
  { a with progress := { a.progress with stored := a.progress.stored + 1 } }

def Account.take (a : Account) (h : ContentHash) : Account := { a with held := h ::ₘ a.held }

section refs
variable {P : Prims} {i : Nat} {a : Account} {f : Multiset (Nat × Account)}
  {g : Audit} {s : NsState}

theorem Balanced.takeRef (h : Balanced ({(i, a)} + f) g s) (c : ContentHash) :
    Balanced ({(i, a.take c)} + f) g (ValueStore.takeRef c s).2 := by
  refine h.move h.paired fun c' => ?_
  show _ = _ + (s.index.holders c').card + (c ::ₘ a.held).count c'
  rw [refcount_takeRef, ← singleton_add, count_add, ← coe_singleton, count_hashes]
  omega

/-- References in hand are given back. -/
theorem Balanced.giveBack (h : Balanced ({(i, a)} + f) g s) {s' : NsState} {hs : List ContentHash}
    {held : Multiset ContentHash} (hheld : a.held = hs + held) (hindex : s'.index = s.index)
    (hcount : ∀ c, ValueStore.refcount s' c = ValueStore.refcount s c - hs.count c) :
    Balanced ({(i, { a with held })} + f) g s' := by
  refine h.move (by rw [hindex]; exact h.paired) fun c => ?_
  have hle := h.counted c
  rw [hheld, count_add, count_hashes] at hle ⊢
  rw [hcount c, hindex]
  omega

theorem fails_ioAct {α : Type} (p : Task (Except IoError α)) :
    Prog.Fails (fun e => e.isIo = true) (ioAct p) := by
  refine Prog.Returns.seq (Prog.returns_any p) fun r _ => ?_
  cases r with
  | ok a => exact fun e he => by cases he
  | error e => rintro _ ⟨rfl⟩; rfl

theorem fails_lift {α : Type} {φ : EngineError → Prop} (p : Task α) : Prog.Fails φ (lift p) := by
  unfold Prog.Fails lift
  rw [ExceptT.run_lift]
  exact Prog.Returns.seq (Prog.returns_any p) fun a _ e he => by cases he

theorem fails_writeBlobDurable (h : ContentHash) (value : Bytes) :
    Prog.Fails (fun e => e.isIo = true) (ValueStore.writeBlobDurable h value) :=
  .seq (fails_ioAct _) fun _ => .seq (fails_ioAct _) fun _ => .seq (fails_ioAct _) fun _ =>
    .seq (fails_ioAct _) fun _ => .seq (fails_lift _) fun _ => .seq (fails_ioAct _)
      fun _ => fails_ioAct _

/-- What a call has after it handed a value over. -/
def HandsOver (i : Nat) (a : Account) : Except EngineError (Option ContentHash) →
    Multiset (Nat × Account) → Prop
  | .ok none, own => own = {(i, a)}
  | .ok (some h), own => own = {(i, (a.take h).handOver)}
  | .error e, own => e.isIo = true ∧ own = {(i, a.handOver)}

/-- A reference taken, or none and an I/O error. -/
def Takes (i : Nat) (a : Account) (h : ContentHash) {α : Type} :
    Except EngineError α → Multiset (Nat × Account) → Prop
  | .ok _, own => own = {(i, a.take h)}
  | .error e, own => e.isIo = true ∧ own = {(i, a)}

theorem books_dec (h : ContentHash) :
    Triple (balancedBy i) {(i, a.take h)} (Prog.modify fun s => (ValueStore.dec h s).2)
        (Owning {(i, a)}) := by
  intro f g s hb
  have hheld : (a.take h).held = ([h] : List ContentHash) + a.held := singleton_add h a.held
  exact ⟨_, hb.giveBack hheld (same_dec h s) fun c => refcount_dec h c s, rfl⟩

/-- The reference is in hand while the blob is written, and given back if that fails. -/
theorem books_valuePut (value : Bytes) :
    Triple (balancedBy i) {(i, a)} (ValueStore.put P value).run fun r own =>
        HandsOver i a (r.map some) own := by
  let h := P.contentHash value
  have htake : Triple (balancedBy i) {(i, a)} (Prog.step (ValueStore.takeRef h)) fun _ own => own
    = {(i, a.take h)} :=
    fun _ _ _ hb => ⟨_, hb.takeRef h, rfl⟩
  have hdone : Triple (balancedBy i) {(i, a.take h)} (pure h : Act ContentHash).run
      fun r own => Takes i a h r own ∧ ∀ h', r = .ok h' → h' = h :=
    .ret ⟨rfl, fun h' he => (Except.ok.inj he).symm⟩
  refine Unmoved.first (calm_lockFile h) fun _ =>
    Triple.seq (?_ : Triple _ _ _ fun r own => Takes i a h r own ∧ ∀ h', r = .ok h' → h' = h) ?_
  · refine Triple.run_lift_seq htake ?_
    rintro first own rfl
    cases first with
    | false => exact hdone
    | true =>
      refine Triple.run_seq (?_ : Triple _ _ _ (Takes i a h)) ?_ fun e own he => ⟨he, nofun⟩
      · refine Triple.seq
          ((Unmoved.calm (calm_writeBlobDurable h value)).returns (fails_writeBlobDurable h value))
          ?_
        rintro r own ⟨rfl, hr⟩
        cases r with
        | ok _ => exact .ret rfl
        | error e =>
          refine Triple.seq (books_dec h) ?_
          rintro _ own rfl
          exact .ret ⟨hr e rfl, rfl⟩
      · rintro _ own rfl
        exact hdone
  rintro r own ⟨hr, hh⟩
  obtain ⟨b, rfl, hb⟩ : ∃ b, own = {(i, b)} ∧ HandsOver i a (r.map some) {(i, b.handOver)} := by
    cases r with
    | ok h' =>
      cases hh h' rfl
      exact ⟨_, hr, rfl⟩
    | error e => exact ⟨_, hr.2, hr.1, rfl⟩
  refine Triple.seq (Unmoved.calm (Prog.within_modify (same_setFileLock h false))) ?_
  rintro _ own rfl
  have hdrop : Triple (balancedBy i) {(i, b)} (dropAll [.blob (ValueStore.flockIdx h)])
      (Owning {(i, b.handOver)}) := by
    refine Triple.seq (books_pass (.drops (.blob (ValueStore.flockIdx h)))) ?_
    rintro _ own ⟨s, rfl⟩
    exact .ret rfl
  refine Triple.seq hdrop ?_
  rintro _ own rfl
  exact .ret hb

theorem books_maybeSeparate (value : Bytes) :
    Triple (balancedBy i) {(i, a)} (maybeSeparate P value).run (HandsOver i a) := by
  refine Unmoved.first (calm_gets _) fun n => ?_
  by_cases hn : n ≤ value.length
  · simp only [hn, if_true]
    refine Triple.run_seq (books_valuePut value) (fun h own hown => ?_) fun e own hown => hown
    obtain rfl : own = {(i, (a.take h).handOver)} := hown
    exact .ret rfl
  · simp only [hn, if_false]
    exact .ret rfl

end refs

/-! ## Calls -/

/-- How a call ends: its hands are empty if and only if its references are accounted for. -/
def Settles (i : Nat) {α : Type} (r : Except EngineError α) (own : Multiset (Nat × Account)) :
    Prop :=
  ∃ b : Account, own = {(i, b)} ∧ (b.held = 0 ↔ b.progress.accounts r = true)

theorem isIo_encodeInto {P : Prims} {buf : Bytes} {tstamp : UInt64} {flags : UInt8} {x : UInt64}
    {key value metadata : Bytes} {e : EngineError}
    (h : encodeInto P buf tstamp flags x key value metadata = .error e) : e.isIo = false := by
  unfold encodeInto at h
  split at h
  · cases h
  · cases h
    rfl

section calls
variable {P : Prims} {i : Nat} {a : Account} {α β : Type}

theorem books_encodeOp (buf : Bytes) (tstamp : UInt64) (op : LogOp) :
    Triple (balancedBy i) {(i, a)} (encodeOp P buf tstamp op).run fun r own =>
      own = {(i, a)} ∧ ∀ e, r = .error e → e.isIo = false :=
  .ret ⟨rfl, fun _ he => isIo_encodeInto he⟩

theorem books_appendOrUnref (active : LogFile) (buf : Bytes) {hs : List ContentHash}
    (hheld : a.held = hs) :
    Triple (balancedBy i) {(i, a)} (appendOrUnref active buf hs).run fun
      | .ok _, own => own = {(i, a)}
      | .error _, own => own = {(i, { a with held := 0 })} := by
  refine Triple.seq (Unmoved.calm (calm_append active buf)) ?_
  rintro r own rfl
  cases r with
  | ok offset => exact .ret rfl
  | error e =>
    have hunref :
      Triple (balancedBy i) {(i, a)}
      (Prog.modify fun s => hs.foldl (fun s h => ValueStore.unref h s) s)
        (Owning {(i, { a with held := 0 })}) := by
      intro f g s hb
      exact ⟨_, hb.giveBack (by rw [hheld, add_zero]) (same_unrefs hs s) fun c =>
        refcount_unrefs c s hs, rfl⟩
    refine Triple.seq hunref ?_
    rintro _ own rfl
    exact .ret rfl

/-- Nothing in hand, and the record is on its way: whatever happens next is accounted for. -/
theorem settles_empty {b : Account} {r : Except EngineError α} (hheld : b.held = 0)
    (hstored : b.progress.reserved = true ∨ b.progress.stored = 0)
    (hremoved : b.progress.removed = none) :
    Settles i r {(i, b)} := by
  refine ⟨b, rfl, iff_of_true hheld ?_⟩
  cases r with
  | ok _ => rfl
  | error e => rcases hstored with h | h <;> simp [Progress.accounts, Progress.loses, hremoved, h]

theorem settles_fresh (r : Except EngineError α) : Settles i r {(i, .fresh)} :=
  settles_empty rfl (.inr rfl) rfl

theorem Settles.map {r : Except EngineError α} {own : Multiset (Nat × Account)}
    (h : Settles i r own) (φ : α → β) :
    Settles i (r.map φ) own := by
  obtain ⟨b, rfl, hb⟩ := h
  refine ⟨b, rfl, ?_⟩
  cases r with
  | ok _ => exact hb
  | error _ => exact hb

/-- A call that has encoded its records reaches for the file. -/
def Account.reserve (a : Account) : Account :=
  { a with progress := { a.progress with reserved := true } }

theorem books_reserve {k : Unit → Act β}
    {post : Except EngineError β → Multiset (Nat × Account) → Prop}
    (hk : Triple (balancedBy i) {(i, a.reserve)} (k ()).run post) :
    Triple (balancedBy i) {(i, a)} (lift (Prog.at_ .reserve) >>= k).run post := by
  refine Triple.run_lift_seq (books_pass .reserve) ?_
  rintro _ own ⟨s, rfl⟩
  exact hk

theorem Balanced.commitEntry {f : Multiset (Nat × Account)} {g : Audit} {s : NsState}
    (h : Balanced ({(i, a)} + f) g s)
    (key : Bytes) (e : IndexEntry) (x : Option UInt64) {sep : Option ContentHash}
    (hheld : a.held = sep.toList) :
    Balanced ({(i, { a with held := 0 })} + f) g (commitEntry key e x sep s) := by
  have hindex :
    (BeyondKv.commitEntry key e x sep s).index = (s.index.insert key e x).setValsep key sep :=
    same_unref? (s.index.valsep key) (s.setIndex ((s.index.insert key e x).setValsep key sep))
  refine h.move ?_ fun c => ?_
  · rw [hindex]
    exact h.paired.put key e x sep
  · have hmoved := NsIndex.holders_put h.paired key e x sep c
    have hle := h.counted c
    have hhas := h.paired.card key c
    have hcount : ValueStore.refcount (BeyondKv.commitEntry key e x sep s) c
        = ValueStore.refcount s c - (s.index.valsep key).toList.count c :=
      refcount_unref? c _ _
    rw [hheld, count_hashes] at hle ⊢
    rw [hindex, hcount, count_zero]
    omega

theorem Balanced.commitBatch {f : Multiset (Nat × Account)} {g : Audit} {s : NsState}
    (h : Balanced ({(i, a)} + f) g s)
    (fileId base : Nat) {items : List BatchItem}
    (hheld : a.held = items.filterMap BatchItem.sepHash) :
    Balanced ({(i, { a with held := 0 })} + f) g (commitBatch fileId base items s) := by
  obtain ⟨hpaired, hmoved⟩ := NsIndex.holders_items h.paired fileId base items []
  have hindex : (BeyondKv.commitBatch fileId base items s).index
      = (items.foldl (insertItem fileId base) (s.index, [])).1 := same_unrefs _ _
  refine h.move ?_ fun c => ?_
  · rw [hindex]
    exact hpaired
  · have hcount : ValueStore.refcount (BeyondKv.commitBatch fileId base items s) c
        = ValueStore.refcount s c - (items.foldl (insertItem fileId base)
          (s.index, [])).2.count c :=
      refcount_unrefs c _ _
    have hle := h.counted c
    have hmoved := hmoved c
    rw [hheld, count_hashes] at hle ⊢
    rw [hindex, hcount, count_zero]
    rw [List.count_nil] at hmoved
    omega

/-- The end of every write: the append, the commit, and a rotation if the file is full. -/
theorem settles_append {buf : Bytes} {hs : List ContentHash} {es : Nat → LogFile → List Effect}
    {commit : Nat → LogFile → NsState → NsState} {result : α} (hheld : a.held = hs)
    (hremoved : a.progress.removed = none) (hes : ∀ o file, OffRecord (.effect (es o file)))
    (hcommit : ∀ o file f g s, Balanced ({(i, a.reserve)} + f) g s →
      Balanced ({(i, { a.reserve with held := 0 })} + f) g (commit o file s)) :
    Triple (balancedBy i) {(i, a)} (do
      lift (Prog.at_ .reserve)
      let active ← lift (Prog.gets NsState.active)
      let offset ← appendOrUnref active buf hs
      lift (countAppend active offset buf.length)
      lift (Prog.at_ (.effect (es offset active)))
      lift (Prog.modify (commit offset active))
      rotateIfFull P active
      return result : Act α).run (Settles i) := by
  have hempty : ∀ r : Except EngineError α, Settles i r {(i, { a.reserve with held := 0 })} :=
    fun r => settles_empty rfl (.inl rfl) hremoved
  refine books_reserve (Unmoved.first (calm_gets _) fun file => ?_)
  refine Triple.run_seq (books_appendOrUnref file buf hheld) (fun o own hown => ?_)
    fun e own hown => ?_
  · obtain rfl : own = {(i, a.reserve)} := hown
    refine Unmoved.first (calm_countAppend file o buf.length) fun _ =>
      Unmoved.first (Prog.within_at (hes o file)) fun _ => ?_
    have hmod : Triple (balancedBy i) {(i, a.reserve)} (Prog.modify (commit o file))
        (Owning {(i, { a.reserve with held := 0 })}) :=
        fun f g s h => ⟨_, hcommit o file f g s h, rfl⟩
    refine Triple.run_lift_seq hmod ?_
    rintro _ own rfl
    exact Unmoved.then (Unmoved.calm (calm_rotateIfFull P file)) (fun e => hempty _) fun _ =>
      .ret (hempty _)
  · obtain rfl : own = {(i, { a.reserve with held := 0 })} := hown
    exact hempty _

/-- A failure before the append: what has been stored is left behind. -/
theorem settles_failed {b : Account} {e : EngineError} (hreserved : b.progress.reserved = false)
    (hremoved : b.progress.removed = none)
    (hstored : b.held.card + (if e.isIo then 1 else 0) = b.progress.stored) :
    Settles i (.error e : Except EngineError α) {(i, b)} := by
  refine ⟨b, rfl, ?_⟩
  have hcard : b.held = 0 ↔ ¬ (if e.isIo then 1 else 0) < b.progress.stored := by
    rw [← card_eq_zero]
    omega
  simpa [Progress.accounts, Progress.loses, hreserved, hremoved] using hcard

theorem settles_commitPut (key value metadata : Bytes) (x : Option UInt64) :
    Triple (balancedBy i) {(i, .fresh)} (commitPut P key value metadata x).run (Settles i) := by
  refine Unmoved.first calm_nextTstamp fun tstamp => ?_
  refine Triple.run_seq (books_maybeSeparate value) (fun sep own hown => ?_) fun e own hown => ?_
  · obtain ⟨b, rfl, hheld, hres, hrem, hstored⟩ : ∃ b :
      Account, own = {(i, b)} ∧ b.held = sep.toList
        ∧ b.progress.reserved = false ∧ b.progress.removed = none
        ∧ b.held.card = b.progress.stored := by
      cases sep with
      | none => exact ⟨_, hown, rfl, rfl, rfl, rfl⟩
      | some h => exact ⟨_, hown, rfl, rfl, rfl, rfl⟩
    refine Triple.run_seq (books_encodeOp [] tstamp _) ?_ ?_
    · rintro buf own ⟨rfl, -⟩
      exact settles_append hheld hrem (fun _ _ _ _ => rfl) fun o file f g s h =>
        h.commitEntry key (IndexEntry.new file.fileId o buf.length tstamp) x hheld
    · rintro e own ⟨rfl, he⟩
      exact settles_failed hres hrem (by rw [he e rfl]; exact hstored)
  · obtain ⟨he, rfl⟩ := hown
    exact settles_failed rfl rfl (by rw [he]; rfl)

/-- A batch that has handed over the blobs `hs`. -/
def Account.storing (a : Account) (hs : List ContentHash) : Account :=
  ⟨{ a.progress with stored := a.progress.stored + hs.length }, a.held + hs⟩

/-- What a batch has in hand after its encoding loop, or where the loop failed. -/
def Encodes (i : Nat) (a : Account) : Except EngineError (Bytes × List BatchItem) →
    Multiset (Nat × Account) → Prop
  | .ok (_, items), own => own = {(i, a.storing (items.filterMap BatchItem.sepHash))}
  | .error e, own => ∃ b : Account, own = {(i, b)} ∧ b.progress.reserved = a.progress.reserved
      ∧ b.progress.removed = a.progress.removed ∧ b.held.card + (if e.isIo then 1 else 0)
      = b.progress.stored

theorem storing_sep (sep : Option ContentHash) (hs : List ContentHash) :
    (a.storing sep.toList).storing hs = a.storing (sep.toList ++ hs) := by
  simp only [Account.storing, ← coe_add, add_assoc, List.length_append]

theorem books_encodeBatch (pairs : List (Bytes × Bytes)) (buf : Bytes)
    (hstored : a.held.card = a.progress.stored) :
    Triple (balancedBy i) {(i, a)} (encodeBatch P pairs buf).run (Encodes i a) := by
  -- the loop hands over one value per turn, so the references in hand are those it has stored
  induction pairs generalizing a buf with
  | nil => exact .ret (by simp [Encodes, Account.storing])
  | cons pair pairs ih =>
    refine Unmoved.first calm_nextTstamp fun tstamp => ?_
    refine Triple.run_seq (books_maybeSeparate pair.2) (fun sep own hown => ?_) fun e own hown => ?_
    · obtain rfl : own = {(i, a.storing sep.toList)} := by
        cases sep with
        | none => simpa [HandsOver, Account.storing] using hown
        | some h =>
          rw [show own = _ from hown]
          simp [Account.storing, Account.take, Account.handOver, ← singleton_add, add_comm]
      have hcard : (a.storing sep.toList).held.card = (a.storing sep.toList).progress.stored := by
        simp [Account.storing, hstored]
      refine Triple.run_seq (books_encodeOp buf tstamp _) ?_ ?_
      · rintro buf' own ⟨rfl, -⟩
        refine Triple.run_seq (ih buf' hcard) (fun out own hown => ?_) fun e own hown => hown
        obtain rfl : own = _ := hown
        refine .ret ?_
        show _ = _
        rw [storing_sep]
        cases sep <;> rfl
      · rintro e own ⟨rfl, he⟩
        exact ⟨_, rfl, rfl, rfl, by rw [he e rfl]; exact hcard⟩
    · obtain ⟨he, rfl⟩ := hown
      exact ⟨_, rfl, rfl, rfl, by rw [he, if_pos rfl]; exact congrArg (· + 1) hstored⟩

/-- A write waits, counts itself in and locks; none of this has to do with blobs. -/
theorem settles_entering {body : Act α}
    (hbody : Triple (balancedBy i) {(i, .fresh)} body.run (Settles i)) :
    Triple (balancedBy i) {(i, .fresh)} (do
      lift awaitReclaim
      beginWrite
      guarded [.inFlight] endWrite body : Act α).run (Settles i) := by
  refine Unmoved.first calm_awaitReclaim fun _ => ?_
  refine Unmoved.then (Unmoved.calm calm_beginWrite) (fun e => settles_fresh _) fun _ => ?_
  exact books_offRecord (by simp) same_endWrite (fun r own hr => hr.imp fun b hb => hb.1) hbody

theorem settles_writing {key : Bytes} {body : Act α}
    (hbody : Triple (balancedBy i) {(i, .fresh)} body.run (Settles i)) :
    Triple (balancedBy i) {(i, .fresh)} (writing P key body).run (Settles i) := by
  refine settles_entering (Unmoved.first (calm_lockStripe _) fun _ => ?_)
  exact books_offRecord (by simp) (same_setStripe _ false)
    (fun r own hr => hr.imp fun b hb => hb.1) hbody

theorem settles_putMany (pairs : List (Bytes × Bytes)) :
    Triple (balancedBy i) {(i, .fresh)} (putMany P pairs).run (Settles i) := by
  refine settles_entering ?_
  by_cases hp : pairs.isEmpty
  · simp only [hp, if_true]
    exact Unmoved.first (Prog.within_at fun _ _ => rfl) fun _ => .ret (settles_fresh _)
  · simp only [hp]
    refine Unmoved.first (calm_lockStripes _) fun _ => ?_
    refine books_offRecord (by simp) (same_unlockStripes _)
      (fun r own hr => hr.imp fun b hb => hb.1) ?_
    refine Triple.run_seq (books_encodeBatch pairs [] rfl) (fun out own hown => ?_)
      fun e own hown => ?_
    · obtain rfl : own = _ := hown
      refine settles_append (zero_add _) rfl (fun o file s p => ?_) fun o file f g s h =>
        h.commitBatch file.fileId o (zero_add _)
      exact offRecord_batch pairs out.2 s p
    · obtain ⟨b, rfl, hres, hrem, hstored⟩ := hown
      exact settles_failed hres hrem hstored

/-- The entry leaves the index and its blob passes into the hands of the call. -/
theorem Balanced.removeEntry {f : Multiset (Nat × Account)} {g : Audit} {s : NsState}
    (h : Balanced ({(i, a)} + f) g s) (key : Bytes) (hheld : a.held = 0) :
    Balanced ({(i, { a with held := (s.index.valsep key).toList })} + f) g
        (s.setIndex (s.index.remove key).2) := by
  refine h.move (h.paired.remove key) fun c => ?_
  have hmoved := NsIndex.holders_remove h.paired key c
  show ValueStore.refcount s c + _ + _ = _ + ((s.index.remove key).2.holders c).card + _
  rw [hheld, count_zero, count_hashes]
  omega

/-- A call that has taken an entry out of the index. -/
def Account.removed (old : Option ContentHash) : Account :=
  ⟨{ Progress.fresh with removed := old }, old.toList⟩

theorem settles_removed (old : Option ContentHash) (e : EngineError) (b : Bool) :
    Settles i (.error e : Except EngineError α)
      {(i,
        ⟨{ (Account.removed old).progress with reserved := b }, (Account.removed old).held⟩)} := by
  refine ⟨_, rfl, ?_⟩
  cases old with
  | none =>
    exact iff_of_true rfl
      (by simp [Progress.accounts, Progress.loses, Account.removed, Progress.fresh])
  | some h =>
    exact iff_of_false (by simp [Account.removed])
      (by simp [Progress.accounts, Progress.loses, Account.removed])

theorem books_removal (key : Bytes) {k : Option ContentHash → Act β}
    {post : Except EngineError β → Multiset (Nat × Account) → Prop}
    (hk : ∀ old, Triple (balancedBy i) {(i, .removed old)} (k old).run post) :
    Triple (balancedBy i) {(i, .fresh)} (do
      lift (Prog.at_ (.effect [.del key]))
      let oldHash ← lift
        (Prog.step fun s => (s.index.valsep key, s.setIndex (s.index.remove key).2))
      k oldHash : Act β).run post := by
  intro f g s h
  rw [wpi_run]
  simp only [wpix_seq, lift, wpix_lift, wpi_at, wpi_step, onOkI_ok]
  exact fun _ => hk _ f _ _ ((h.pass (.effect [.del key])).removeEntry key rfl)

theorem settles_commitTombstone (key : Bytes) :
    Triple (balancedBy i) {(i, .fresh)} (commitTombstone P key).run (Settles i) := by
  refine books_removal key fun old => Unmoved.first calm_nextTstamp fun tstamp => ?_
  refine Unmoved.then (Unmoved.calm (calm_encodeOp P _ _ _)) (fun e => settles_removed old e false)
    fun buf => ?_
  refine books_reserve (Unmoved.first (calm_gets _) fun file => ?_)
  refine Unmoved.then (Unmoved.calm (calm_append file buf))
    (fun e => settles_removed old e true) fun o => ?_
  refine Unmoved.first (calm_countAppend file o buf.length) fun _ => ?_
  have hunref :
    Triple (balancedBy i) {(i, (Account.removed old).reserve)} (Prog.modify (ValueStore.unref? old))
      (Owning {(i, { (Account.removed old).reserve with held := 0 })}) := by
    intro f g s h
    exact ⟨_, h.giveBack (by simp [Account.removed, Account.reserve]) (same_unref? old s)
      fun c => refcount_unref? c s old, rfl⟩
  refine Triple.run_lift_seq hunref ?_
  rintro _ own rfl
  exact .ret ⟨_, rfl, iff_of_true rfl rfl⟩

theorem Settles.then_pure {p : Act α} {pre : Multiset (Nat × Account)} (φ : α → β)
    (hp : Triple (balancedBy i) pre p.run (Settles i)) :
    Triple (balancedBy i) pre (p >>= fun x => pure (φ x)).run (Settles i) := by
  refine Triple.run_seq hp (fun x own h => .ret ?_) fun e own h => ?_
  · exact h.map φ
  · exact h.map φ

theorem settles_tombstone (key : Bytes) :
    Triple (balancedBy i) {(i, .fresh)} (tombstone P key).run (Settles i) := by
  refine settles_writing fun f g s h => ?_
  -- whether the key is there decides in the same turn what its removal means
  rw [wpi_run]
  simp only [wpix_seq, lift, wpix_lift, wpi_gets, onOkI_ok]
  cases hget : s.index.get key with
  | some e =>
    simp only [Option.isSome_some, if_true]
    exact Settles.then_pure some (settles_commitTombstone key) f g s h
  | none =>
    have hsep := h.paired key hget
    simp only [Option.isSome_none, Bool.false_eq_true, if_false, wpix_seq, wpix_lift, wpi_at,
      wpi_modify, onOkI_ok]
    intro _
    have hgone := (h.pass (.effect [.del key])).removeEntry key rfl
    simp only [Progress.pass, hsep] at hgone
    exact ⟨_, hgone, settles_fresh _⟩

theorem settles_tombstoneCond (key : Bytes) (rev now : UInt64) :
    Triple (balancedBy i) {(i, .fresh)} (tombstoneCond P key rev now).run (Settles i) := by
  refine settles_writing (Unmoved.first (calm_gets _) fun b => ?_)
  cases b with
  | true => exact Settles.then_pure some (settles_commitTombstone key)
  | false => exact Unmoved.first (Prog.within_at fun _ _ => rfl) fun _ => .ret (settles_fresh _)

theorem settles_putFullCond (key value metadata : Bytes) (x : Option UInt64) (cond : WriteCondition)
    (now : UInt64) :
    Triple (balancedBy i) {(i, .fresh)} (putFullCond P key value metadata x cond now).run
        (Settles i) := by
  refine settles_writing (Unmoved.first (calm_gets _) fun rev => ?_)
  by_cases hc : cond.check rev
  · simp only [hc, if_true]
    exact Settles.then_pure some (settles_commitPut key value metadata x)
  · simp only [hc]
    exact Unmoved.first (Prog.within_at fun _ _ => rfl) fun _ => .ret (settles_fresh _)

theorem settles_ttlUpdate (key : Bytes) (x : Option UInt64) :
    Triple (balancedBy i) {(i, .fresh)} (ttlUpdate P key x).run (Settles i) := by
  refine settles_writing (Unmoved.first calm_nextTstamp fun tstamp => ?_)
  refine Unmoved.then (Unmoved.calm (calm_encodeOp P _ _ _))
    (fun e => settles_fresh _) fun buf => ?_
  refine books_reserve (Unmoved.first (calm_gets _) fun file => ?_)
  have hdone : ∀ r : Except EngineError UInt64, Settles i r {(i, Account.fresh.reserve)} :=
    fun r => settles_empty rfl (.inl rfl) rfl
  refine Unmoved.then (Unmoved.calm (calm_append file buf)) (fun e => hdone _) fun o => ?_
  refine Unmoved.first (calm_countAppend file o buf.length) fun _ =>
    Unmoved.first (Prog.within_at fun _ _ => rfl) fun _ => ?_
  have hset : Triple (balancedBy i) {(i, Account.fresh.reserve)}
      (Prog.modify fun s => s.setIndex (s.index.setTtl key x))
      (Owning {(i, Account.fresh.reserve)}) := by
    intro f g s h
    have hsame : ∀ c, (s.index.setTtl key x).holders c = s.index.holders c := by
      intro c
      ext k
      simp [NsIndex.mem_holders]
    refine ⟨_, h.move (h.paired.setTtl key x) fun c => ?_, rfl⟩
    show ValueStore.refcount s c + _ + _ = _ + ((s.index.setTtl key x).holders c).card + _
    rw [hsame]
    rfl
  refine Triple.run_lift_seq hset ?_
  rintro _ own rfl
  exact .ret (hdone _)

theorem Call.settles {c : Call} (hc : c.Writes = true) :
    Triple (balancedBy i) {(i, .fresh)} (c.act P).run (Settles i) := by
  cases c with
  | putFull k v m x =>
    exact Settles.then_pure (fun t => [t]) (settles_writing (settles_commitPut k v m x))
  | putFullCond k v m x cond now =>
    exact Settles.then_pure Option.toList (settles_putFullCond k v m x cond now)
  | putMany pairs => exact settles_putMany pairs
  | tombstone k => exact Settles.then_pure Option.toList (settles_tombstone k)
  | tombstoneCond k rev now =>
    exact Settles.then_pure Option.toList (settles_tombstoneCond k rev now)
  | ttlUpdate k x => exact Settles.then_pure (fun t => [t]) (settles_ttlUpdate k x)
  | _ => cases hc

theorem Call.balances {c : Call} (hc : c.Writes = true) :
    Triple (balanced.via (Prod.mk i)) {(i, .fresh)} (c.task P) Clean := by
  have hstart : Triple (balanced.via (Prod.mk i)) {(i, .fresh)} (Prog.at_ (.inr .started))
      (Owning {(i, Account.fresh)}) := fun _ _ _ h _ => ⟨_, h, rfl⟩
  refine Triple.seq hstart ?_
  rintro _ own rfl
  refine Triple.seq (fun f g s h => wpi_relabel (Call.settles (i := i) hc f g s h)) ?_
  rintro r own ⟨b, rfl, hb⟩ f g s h _
  exact ⟨0, by rw [zero_add]; exact h.finish hb, rfl⟩

end calls

/-! ## Runs -/

/-- **Reference counts.** Writes and deletes of any keys and values run interleaved in any way on
a disk with any faults. Once they have all ended the counts are exact if and only if none of them
failed with references in its hands. -/
theorem blob_counts_exact_iff (P : Prims) {calls : List Call} {s₀ : NsState}
    {w : Pool NsState (Nat × (Point ⊕ Stage)) Audit} (hcalls : ∀ c ∈ calls, c.Writes = true)
    (hexact : ExactCounts s₀) (hpaired : s₀.index.Paired)
    (hrun : Runs auditing (.of (callTasks P calls) .start s₀) w) (hend : w.Ended) :
    ExactCounts w.state ↔ w.ghost.intact = true := by
  have hstart : (Pool.of (callTasks P calls) Audit.start s₀).Ok balanced (fun _ => balanced.excuse)
      (List.range (calls.map (Call.task P)).length) := by
    refine Pool.ok_numbered (fun i => {(i, .fresh)}) ?_ fun i p hp => ?_
    · rw [sum_singletons]
      refine ⟨by simp [Function.comp_def, List.nodup_range], ?_, hpaired, 0, by simp [Audit.start],
        fun h => ?_⟩
      · intro x hx
        obtain ⟨i, -, rfl⟩ := List.mem_map.mp hx
        rfl
      · rw [hexact h]
        simp [inHand, Account.fresh, Function.comp_def]
    · rw [List.getElem?_map, Option.map_eq_some_iff] at hp
      obtain ⟨c, hc, rfl⟩ := hp
      exact Call.balances (hcalls c (List.mem_of_getElem? hc))
  obtain ⟨-, -, -, lost, hlost, hcount⟩ := (hrun.ok (Γ := balanced) hstart).ended hend
  rw [← hlost]
  constructor
  · intro hex
    refine eq_zero_of_forall_notMem fun h hmem => ?_
    have hpos := count_pos.mpr hmem
    have hc := hcount h
    rw [hex h] at hc
    omega
  · rintro rfl h
    simpa [inHand] using hcount h

/-! A put of a value that becomes a blob, and the delete of its key. -/

def putAndDelete : List Call := [.putFull [0x61] [0] [] none, .tombstone [0x61]]

/-- The calls on a fresh log in which every value but the empty one becomes a blob, resumed in the
order given. -/
def runBlobs (fault : Nat → Option Nat) (calls : List Call) (turns : List Nat) :
    Option (NsState × Pool NsState (Nat × (Point ⊕ Stage)) Audit) :=
  (openLog realPrims { LogConfig.default with valueSepThreshold := 1 }
    (fun _ => 100) fault Disk.empty).toOption.bind
    fun s =>
      (schedule auditing (turns.map (·, [])) (.of (callTasks realPrims calls) .start s)).map (s, ·)

theorem runs_runBlobs {fault : Nat → Option Nat} {calls : List Call}
    {turns : List Nat} {s : NsState}
    {w : Pool NsState (Nat × (Point ⊕ Stage)) Audit}
    (h : runBlobs fault calls turns = some (s, w)) :
    openLog realPrims { LogConfig.default with valueSepThreshold := 1 }
      (fun _ => 100) fault Disk.empty = .ok s
      ∧ Runs auditing (.of (callTasks realPrims calls) .start s) w := by
  obtain ⟨s', hs, h'⟩ := Option.bind_eq_some_iff.mp h
  obtain ⟨w', hw, heq⟩ := Option.map_eq_some_iff.mp h'
  cases heq
  refine ⟨?_, runs_of_schedule .start hw⟩
  cases ho :
    openLog realPrims { LogConfig.default with valueSepThreshold := 1 }
    (fun _ => 100) fault Disk.empty with
  | error e => rw [ho] at hs; cases hs
  | ok s' => rw [ho] at hs; exact congrArg _ (Option.some.inj hs)

theorem blob_counts_exact_iff_put_delete :
    ∃ s w, openLog realPrims { LogConfig.default with valueSepThreshold := 1 } (fun _ => 100)
      (fun _ => none) Disk.empty
        = .ok s
      ∧ (∀ c ∈ putAndDelete, c.Writes = true) ∧ ExactCounts s ∧ s.index.Paired
      ∧ Runs auditing (.of (callTasks realPrims putAndDelete) .start s) w ∧ w.Ended
      ∧ w.ghost.intact = true
      ∧ ExactCounts w.state := by
  have hview :
    (runBlobs (fun _ => none) putAndDelete (List.replicate 17 0 ++ List.replicate 3 1)).map
      (fun x => x.2.tasks.all (fun p => p.returned.isSome) && x.2.ghost.intact) = some true := by
    decide +kernel
  obtain ⟨⟨s, w⟩, hsome, heq⟩ := Option.map_eq_some_iff.mp hview
  obtain ⟨hret, hintact⟩ := Bool.and_eq_true_iff.mp heq
  obtain ⟨hopen, hrun⟩ := runs_runBlobs hsome
  obtain ⟨hexact, hpaired⟩ := openLog_exact hopen
  have hwrites : ∀ c ∈ putAndDelete, c.Writes = true := by decide
  have hend := ended_of_returned hret
  exact ⟨s, w, hopen, hwrites, hexact, hpaired, hrun, hend, hintact,
    (blob_counts_exact_iff realPrims hwrites hexact hpaired hrun hend).mpr hintact⟩

/-- The append of the tombstone fails. The key is gone from the index, both calls have returned,
and the blob of its value is still counted once. -/
theorem failed_tombstone_keeps_reference :
    ∃ s w, openLog realPrims { LogConfig.default with valueSepThreshold := 1 } (fun _ => 100)
        (fun n => if n = 11 then some 0 else none) Disk.empty = .ok s
      ∧ Runs auditing (.of (callTasks realPrims putAndDelete) .start s) w ∧ w.Ended
      ∧ ValueStore.refcount w.state (realPrims.contentHash [0]) = 1
      ∧ w.state.index.holders (realPrims.contentHash [0]) = ∅ := by
  have hview : (runBlobs (fun n => if n = 11 then some 0 else none) putAndDelete
      (List.replicate 17 0 ++ List.replicate 3 1)).map
      (fun x => x.2.tasks.all (fun p => p.returned.isSome)
        && decide (ValueStore.refcount x.2.state (realPrims.contentHash [0]) = 1
          ∧ x.2.state.index.holders (realPrims.contentHash [0]) = ∅)) = some true := by
    decide +kernel
  obtain ⟨⟨s, w⟩, hsome, heq⟩ := Option.map_eq_some_iff.mp hview
  obtain ⟨hret, hcounts⟩ := Bool.and_eq_true_iff.mp heq
  obtain ⟨hopen, hrun⟩ := runs_runBlobs hsome
  exact ⟨s, w, hopen, hrun, ended_of_returned hret, of_decide_eq_true hcounts⟩

end BeyondKv
