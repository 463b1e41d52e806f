/-
# The collector of blobs

Any number of puts, unrefs and collections of one blob store share a thread. The file of a blob
is created, rewritten and unlinked under the lock stripe of its hash only, and the holder of a
stripe goes through phases:

    first put of a content     idle → begun → ready → opened → wrote
    another put of it          idle → wrote
    collection                 idle → doomed → gone

Between `begun` and `opened` the file may be missing or short; the one reference there is
then belongs to the put that has not returned (`Phase.Ok`). An `unref` takes no lock and may come
at any time, so a collector that has found a count of zero must be sure that it stays zero
(`doomed`). Every blob that lost its last reference is in the queue or on the list of a
collector until its file is gone or it is referenced again (`Collecting.track`).
-/
import BeyondKv.BlobCounts
import BeyondKv.Calm
import BeyondKv.Lib.Interleave

namespace BeyondKv

open Async ValueStore Function Multiset

/-! ## Operations of the store -/

/-- What the file of a blob holds. -/
def NsState.blob (s : NsState) (h : ContentHash) : Option Bytes :=
  (s.disk.blobs[h]?).map s.disk.inodes

inductive BlobOp where
  | put (value : Bytes)
  | unref (h : ContentHash)
  | collect

inductive BlobNote where
  | returned (r : Except EngineError ContentHash)
  | drops (h : ContentHash)

def BlobOp.task (P : Prims) : BlobOp → Prog NsState (Point ⊕ BlobNote) Unit
  | .put value => do
    let r ← (ValueStore.put P value).run.relabel .inl
    Prog.at_ (.inr (.returned r))
  | .unref h => do
    Prog.at_ (.inr (.drops h))
    Prog.modify (ValueStore.unref h)
  | .collect => collectGarbage.relabel .inl

/-- What is recorded of a run. The references that are there at its start count as those of
puts that have returned. -/
structure Ledger where
  returned : ContentHash → Nat
  /-- Unrefs that found a reference. -/
  dropped : ContentHash → Nat
  /-- The blobs that have ever been queued. -/
  queued : List ContentHash

def Ledger.start (s : NsState) : Ledger := ⟨refcount s, fun _ => 0, s.pendingDelete⟩

def Ledger.note : Point ⊕ BlobNote → NsState → Ledger → Ledger
  | .inr (.returned (.ok h)), _, g =>
    { g with returned := Function.update g.returned h (g.returned h + 1) }
  | .inr (.drops h), s, g =>
    { g with
      dropped := Function.update g.dropped h (g.dropped h + min 1 (refcount s h))
      queued := if (dec h s).1 then h :: g.queued else g.queued }
  | _, _, g => g

abbrev bookkeeping : Discipline NsState (Point ⊕ BlobNote) Ledger := .record Ledger.note

/-! ## Phases -/

/-- Blobs have files of their own, in a directory that exists. -/
structure BlobFiles (d : Disk) : Prop where
  named : ∀ {h : ContentHash} {ino : Nat}, d.blobs[h]? = some ino → ino < d.nextIno
  apart : ∀ {h h' : ContentHash} {ino : Nat}, d.blobs[h]? = some ino →
    d.blobs[h']? = some ino → h = h'
  dir : ∀ {h : ContentHash} {ino : Nat}, d.blobs[h]? = some ino → d.valuesDir = true

/-- What the holder of a stripe is doing to the blob. -/
inductive Phase where
  | idle
  /-- The first reference is taken, -/
  | begun
  /-- the directory is there, -/
  | ready
  /-- the file is there and empty. -/
  | opened (ino : Nat)
  /-- A reference is taken and the file is complete. -/
  | wrote
  /-- No reference was found. -/
  | doomed
  /-- The file has been unlinked. -/
  | gone
  deriving DecidableEq

def Phase.writing : Phase → Bool
  | .begun | .ready | .opened _ => true
  | _ => false

/-- The references of the holder. -/
def Phase.refs : Phase → Nat
  | .begun | .ready | .opened _ | .wrote => 1
  | _ => 0

/-- The blob is complete; `C` says which contents may stand under a hash. -/
def Complete (C : ContentHash → Bytes → Prop) (s : NsState) (h : ContentHash) : Prop :=
  ∃ v, s.blob h = some v ∧ C h v

def Phase.Ok (C : ContentHash → Bytes → Prop) (h : ContentHash) (s : NsState) : Phase → Prop
  | .idle => True
  | .begun => refcount s h ≤ 1
  | .ready => refcount s h ≤ 1 ∧ s.disk.valuesDir = true
  | .opened ino => refcount s h ≤ 1 ∧ s.disk.blobs[h]? = some ino ∧ s.disk.inodes ino = []
  | .wrote => Complete C s h
  | .doomed => refcount s h = 0
  | .gone => s.disk.blobs[h]? = none

/-- A change that concerns one hash. -/
structure Elsewhere (h : ContentHash) (s s' : NsState) : Prop where
  count : ∀ h', h' ≠ h → refcount s' h' = refcount s h'
  name : ∀ h', h' ≠ h → s'.disk.blobs[h']? = s.disk.blobs[h']?
  bytes : ∀ h' ino, h' ≠ h → s.disk.blobs[h']? = some ino → s'.disk.inodes ino = s.disk.inodes ino
  dir : s.disk.valuesDir = true → s'.disk.valuesDir = true

section phases
variable {C : ContentHash → Bytes → Prop} {h h' : ContentHash} {s s' : NsState} {p : Phase}

theorem Elsewhere.blob (he : Elsewhere h s s') (hne : h' ≠ h) : s'.blob h' = s.blob h' := by
  unfold NsState.blob
  rw [he.name h' hne]
  cases hb : s.disk.blobs[h']? with
  | none => rfl
  | some ino => exact congrArg some (he.bytes h' ino hne hb)

theorem Phase.Ok.elsewhere (hp : p.Ok C h' s) (he : Elsewhere h s s') (hne : h' ≠ h) :
    p.Ok C h' s' := by
  cases p with
  | idle => trivial
  | begun => exact (he.count h' hne).trans_le hp
  | ready => exact ⟨(he.count h' hne).trans_le hp.1, he.dir hp.2⟩
  | opened ino =>
    exact ⟨(he.count h' hne).trans_le hp.1, (he.name h' hne).trans hp.2.1,
      (he.bytes h' ino hne hp.2.1).trans hp.2.2⟩
  | wrote =>
    obtain ⟨v, hv, hc⟩ := hp
    exact ⟨v, (he.blob hne).trans hv, hc⟩
  | doomed => exact (he.count h' hne).trans hp
  | gone => exact (he.name h' hne).trans hp

end phases

/-! ## The invariant -/

/-- What a task holds. -/
inductive Claim where
  | holds (h : ContentHash) (p : Phase)
  /-- A reference for a put that is about to return. -/
  | has (h : ContentHash)
  /-- An entry of a collector's list. -/
  | todo (h : ContentHash)
  deriving DecidableEq

def Claim.stripe : Claim → Option Nat
  | .holds h _ => some (flockIdx h)
  | _ => none

def Claim.refs (h : ContentHash) : Claim → Nat
  | .holds h' p => if h' = h then p.refs else 0
  | .has h' => if h' = h then 1 else 0
  | .todo _ => 0

/-- The references that puts have taken and not returned. -/
def refsIn (M : Multiset Claim) (h : ContentHash) : Nat := (M.map (Claim.refs h)).sum

/-- The blob is being written. -/
def Written (M : Multiset Claim) (h : ContentHash) : Prop := ∃ p, p.writing = true ∧ .holds h p ∈ M

structure Collecting (C : ContentHash → Bytes → Prop) (M : Multiset Claim) (g : Ledger)
    (s : NsState) : Prop where
  quiet : ∀ n, s.fault n = none
  files : BlobFiles s.disk
  locked : ∀ n, s.fileLocks n = true ↔ n ∈ M.filterMap Claim.stripe
  alone : (M.filterMap Claim.stripe).Nodup
  phases : ∀ h p, .holds h p ∈ M → p.Ok C h s
  sound : ∀ h, 0 < refcount s h → Complete C s h ∨ Written M h
  count : ∀ h, refcount s h + g.dropped h = g.returned h + refsIn M h
  track : ∀ h, (h ∈ g.queued ∧ (s.blob h).isSome) ∨ Written M h →
    0 < refcount s h ∨ h ∈ s.pendingDelete ∨ .todo h ∈ M

section invariant
variable {C : ContentHash → Bytes → Prop} {f : Multiset Claim} {g : Ledger} {s s' : NsState}
  {h h' : ContentHash} {p p' : Phase}

@[simp] theorem refsIn_add (M N : Multiset Claim) (h : ContentHash) :
    refsIn (M + N) h = refsIn M h + refsIn N h := by
  simp [refsIn]

@[simp] theorem refsIn_singleton (c : Claim) (h : ContentHash) : refsIn {c} h = c.refs h := by
  simp [refsIn]

theorem written_own : Written ({.holds h p} + f) h' ↔ (h' = h ∧ p.writing = true)
    ∨ Written f h' := by
  constructor
  · rintro ⟨q, hq, hm⟩
    rcases mem_add.mp hm with hm | hm
    · cases mem_singleton.mp hm
      exact .inl ⟨rfl, hq⟩
    · exact .inr ⟨q, hq, hm⟩
  · rintro (⟨rfl, hp⟩ | ⟨q, hq, hm⟩)
    · exact ⟨p, hp, by simp⟩
    · exact ⟨q, hq, mem_add.mpr (.inr hm)⟩

theorem written_other {c : Claim} (hc : ∀ h p, c ≠ .holds h p) :
    Written ({c} + f) h ↔ Written f h := by
  refine exists_congr fun q => and_congr_right fun _ => ?_
  rw [mem_add, mem_singleton]
  exact or_iff_right fun he => hc h q he.symm

theorem todo_own : Claim.todo h' ∈ ({.holds h p} + f : Multiset Claim) ↔ .todo h' ∈ f := by simp

theorem stripes_own : ({.holds h p} + f : Multiset Claim).filterMap Claim.stripe
    = flockIdx h ::ₘ f.filterMap Claim.stripe := by
  rw [singleton_add]
  exact filterMap_cons_some _ _ _ rfl

theorem stripes_other {c : Claim} (hc : c.stripe = none) :
    ({c} + f : Multiset Claim).filterMap Claim.stripe = f.filterMap Claim.stripe := by
  rw [singleton_add]
  exact filterMap_cons_none _ _ hc

/-- The holder of a stripe is the only one. -/
theorem Collecting.unique (hi : Collecting C ({.holds h p} + f) g s) (hm : .holds h' p' ∈ f) :
    h' ≠ h := by
  rintro rfl
  have hn := hi.alone
  rw [stripes_own, nodup_cons] at hn
  exact hn.1 ((mem_filterMap _ _).mpr ⟨_, hm, rfl⟩)

theorem Collecting.notWritten (hi : Collecting C ({.holds h p} + f) g s) : ¬ Written f h := by
  rintro ⟨q, -, hm⟩
  exact hi.unique hm rfl

theorem Collecting.ok (hi : Collecting C ({.holds h p} + f) g s) : p.Ok C h s :=
  hi.phases h p (by simp)

/-- The holder of the stripe of `h` changes what concerns `h`. -/
theorem Collecting.move (hi : Collecting C ({.holds h p} + f) g s) (hfault : s'.fault = s.fault)
    (hlocks : s'.fileLocks = s.fileLocks) (hpending : s'.pendingDelete = s.pendingDelete)
    (hfiles : BlobFiles s'.disk) (helse : Elsewhere h s s') (hok : p'.Ok C h s')
    (hcount : refcount s' h + p.refs = refcount s h + p'.refs)
    (hsound : 0 < refcount s' h → Complete C s' h ∨ p'.writing = true)
    (htrack : (h ∈ g.queued ∧ (s'.blob h).isSome) ∨ p'.writing = true →
      0 < refcount s' h ∨ h ∈ s.pendingDelete ∨ .todo h ∈ f) :
    Collecting C ({.holds h p'} + f) g s' where
  quiet := by rw [hfault]; exact hi.quiet
  files := hfiles
  locked := by
    have hl := hi.locked
    rw [stripes_own] at hl ⊢
    rw [hlocks]
    exact hl
  alone := by
    have ha := hi.alone
    rw [stripes_own] at ha ⊢
    exact ha
  phases h' q hm := by
    rcases mem_add.mp hm with hm | hm
    · cases mem_singleton.mp hm
      exact hok
    · exact (hi.phases h' q (mem_add.mpr (.inr hm))).elsewhere helse (hi.unique hm)
  sound h' hpos := by
    rw [written_own]
    by_cases heq : h' = h
    · subst heq
      exact (hsound hpos).imp_right fun hw => .inl ⟨rfl, hw⟩
    · rw [helse.count h' heq] at hpos
      rcases hi.sound h' hpos with ⟨v, hv, hc⟩ | hw
      · exact .inl ⟨v, (helse.blob heq).trans hv, hc⟩
      · exact .inr (.inr ((written_own.mp hw).resolve_left fun hx => heq hx.1))
  count h' := by
    have hc := hi.count h'
    rw [refsIn_add, refsIn_singleton] at hc ⊢
    by_cases heq : h' = h
    · subst heq
      simp only [Claim.refs, if_true] at hc ⊢
      omega
    · rw [helse.count h' heq]
      simp only [Claim.refs, Ne.symm heq, if_false] at hc ⊢
      exact hc
  track h' hq := by
    rw [todo_own, hpending]
    by_cases heq : h' = h
    · subst heq
      refine htrack (hq.imp_right fun hw => ?_)
      exact ((written_own.mp hw).resolve_right hi.notWritten).2
    · rw [helse.count h' heq]
      have hold := hi.track h'
      rw [todo_own] at hold
      refine hold (hq.imp (fun hx => ⟨hx.1, by rw [← helse.blob heq]; exact hx.2⟩) fun hw => ?_)
      exact written_own.mpr (.inr ((written_own.mp hw).resolve_left fun hx => heq hx.1))

/-- The holder goes on to another phase and nothing changes. -/
theorem Collecting.phase (hi : Collecting C ({.holds h p} + f) g s) (hok : p'.Ok C h s)
    (hrefs : p'.refs = p.refs)
    (hw : p'.writing = p.writing) : Collecting C ({.holds h p'} + f) g s := by
  refine hi.move rfl rfl rfl hi.files ⟨fun _ _ => rfl, fun _ _ => rfl, fun _ _ _ _ => rfl, id⟩ hok
    (by rw [hrefs])
    (fun hpos => ?_) fun hq => ?_
  · rcases hi.sound h hpos with hc | hx
    · exact .inl hc
    · exact .inr (hw ▸ ((written_own.mp hx).resolve_right hi.notWritten).2)
  · have hold := hi.track h
    rw [todo_own] at hold
    exact hold (hq.imp_right fun hx => written_own.mpr (.inl ⟨rfl, hw ▸ hx⟩))

/-- What the invariant looks at, the locks apart. -/
structure SameStore (s s' : NsState) : Prop where
  fault : s'.fault = s.fault
  disk : s'.disk = s.disk
  refs : s'.refs = s.refs
  pending : s'.pendingDelete = s.pendingDelete

theorem SameStore.ok (hs : SameStore s s') (hp : p.Ok C h s) : p.Ok C h s' := by
  have hcount : refcount s' h = refcount s h := by rw [refcount, hs.refs, refcount]
  cases p <;> simp only [Phase.Ok, Complete, NsState.blob, hcount, hs.disk] at hp ⊢ <;> exact hp

/-- Others may come and go as long as references, writers and lists are the same. -/
theorem Collecting.exchange {M M' : Multiset Claim} (hi : Collecting C M g s) (hs : SameStore s s')
    (hlocked : ∀ n, s'.fileLocks n = true ↔ n ∈ M'.filterMap Claim.stripe)
    (halone : (M'.filterMap Claim.stripe).Nodup) (hphases : ∀ h p, .holds h p ∈ M' → p.Ok C h s)
    (hwritten : ∀ h, Written M' h ↔ Written M h) (hrefs : ∀ h, refsIn M' h = refsIn M h)
    (htodo : ∀ h, (h ∈ g.queued ∧ (s.blob h).isSome) ∨ Written M h → .todo h ∈ M → 0 < refcount s h
      ∨ .todo h ∈ M') :
    Collecting C M' g s' := by
  have hcount : ∀ h, refcount s' h = refcount s h := fun h => by rw [refcount, hs.refs, refcount]
  have hblob : ∀ h, s'.blob h = s.blob h := fun h => by rw [NsState.blob, hs.disk, NsState.blob]
  refine ⟨by rw [hs.fault]; exact hi.quiet, by rw [hs.disk]; exact hi.files, hlocked, halone,
    fun h p hm => hs.ok (hphases h p hm), fun h hpos => ?_, fun h => ?_, fun h hq => ?_⟩
  · rw [hcount] at hpos
    rw [hwritten]
    refine (hi.sound h hpos).imp_left ?_
    rintro ⟨v, hv, hc⟩
    exact ⟨v, (hblob h).trans hv, hc⟩
  · rw [hcount, hrefs]
    exact hi.count h
  · rw [hblob, hwritten] at hq
    rw [hcount, hs.pending]
    rcases hi.track h hq with hpos | hpend | htd
    · exact .inl hpos
    · exact .inr (.inl hpend)
    · exact (htodo h hq htd).imp_right .inr

theorem Collecting.lock (hi : Collecting C f g s) (hfree : s.fileLocks (flockIdx h) = false) :
    Collecting C ({.holds h .idle} + f) g (setFileLock h true s) := by
  have hout : flockIdx h ∉ f.filterMap Claim.stripe := fun hm => by
    rw [(hi.locked _).mpr hm] at hfree
    cases hfree
  refine hi.exchange ⟨rfl, rfl, rfl, rfl⟩ (fun n => ?_) ?_ (fun h' p hm => ?_) (fun h' => ?_)
    (fun h' => ?_)
    fun h' _ htd => .inr (todo_own.mpr htd)
  · rw [stripes_own, mem_cons, ← hi.locked n]
    show Function.update s.fileLocks (flockIdx h) true n = true ↔ _
    by_cases hn : n = flockIdx h
    · subst hn
      simp
    · simp [hn]
  · rw [stripes_own, nodup_cons]
    exact ⟨hout, hi.alone⟩
  · rcases mem_add.mp hm with hm | hm
    · cases mem_singleton.mp hm
      trivial
    · exact hi.phases h' p hm
  · rw [written_own]
    exact or_iff_right fun hx => by cases hx.2
  · rw [refsIn_add, refsIn_singleton]
    simp [Claim.refs, Phase.refs]

/-- What a holder that is not writing has in hand without the lock. -/
def Phase.leaves (h : ContentHash) (p : Phase) : Multiset Claim :=
  if p.refs = 1 then {.has h} else 0

theorem Collecting.unlock (hi : Collecting C ({.holds h p} + f) g s) (hp : p.writing = false) :
    Collecting C (p.leaves h + f) g (setFileLock h false s) := by
  have hstripes : (p.leaves h + f).filterMap Claim.stripe = f.filterMap Claim.stripe := by
    unfold Phase.leaves
    split
    · exact stripes_other rfl
    · rw [zero_add]
  have hmem : ∀ h' q, Claim.holds h' q ∈ p.leaves h + f ↔ .holds h' q ∈ f := by
    intro h' q
    unfold Phase.leaves
    split <;> simp
  have hwritten : ∀ h', Written (p.leaves h + f) h' ↔ Written ({.holds h p} + f) h' := by
    intro h'
    rw [written_own, hp]
    simp only [Bool.false_eq_true, and_false, false_or]
    exact exists_congr fun q => and_congr_right fun _ => hmem h' q
  have hn := hi.alone
  rw [stripes_own, nodup_cons] at hn
  refine hi.exchange ⟨rfl, rfl, rfl, rfl⟩ (fun n => ?_) (by rw [hstripes]; exact hn.2)
    (fun h' q hm => ?_) hwritten
    (fun h' => ?_) fun h' _ htd => .inr ?_
  · rw [hstripes]
    show Function.update s.fileLocks (flockIdx h) false n = true ↔ _
    have hl := hi.locked n
    rw [stripes_own, mem_cons] at hl
    by_cases heq : n = flockIdx h
    · subst heq
      simp [hn.1]
    · rw [update_of_ne heq, hl]
      exact or_iff_right heq
  · exact hi.phases h' q (mem_add.mpr (.inr ((hmem h' q).mp hm)))
  · rw [refsIn_add, refsIn_add, refsIn_singleton]
    unfold Phase.leaves
    cases p <;> simp [Claim.refs, Phase.refs, refsIn]
  · rw [todo_own] at htd
    exact mem_add.mpr (.inr htd)

/-- The collector is done with an entry. -/
theorem Collecting.settle (hi : Collecting C ({.holds h p} + ({.todo h} + f)) g s)
    (hp : p.writing = false)
    (hdone : 0 < refcount s h ∨ s.disk.blobs[h]? = none) : Collecting C ({.holds h p} + f) g s := by
  have hstripes := hi.alone
  rw [stripes_own, stripes_other rfl] at hstripes
  have hwritten : ∀ h', Written ({.holds h p} + f) h'
      ↔ Written ({.holds h p} + ({.todo h} + f)) h' := by
    intro h'
    rw [written_own, written_own, written_other fun _ _ => by simp]
  refine hi.exchange ⟨rfl, rfl, rfl, rfl⟩ (fun n => ?_) (by rw [stripes_own]; exact hstripes)
    (fun h' q hm => ?_)
    hwritten (fun h' => ?_) fun h' hq htd => ?_
  · rw [hi.locked n, stripes_own, stripes_own, stripes_other rfl]
  · refine hi.phases h' q ?_
    rcases mem_add.mp hm with hm | hm
    · exact mem_add.mpr (.inl hm)
    · exact mem_add.mpr (.inr (mem_add.mpr (.inr hm)))
  · simp only [refsIn_add, refsIn_singleton, Claim.refs, zero_add]
  · by_cases heq : h' = h
    · subst heq
      refine .inl (hdone.resolve_right fun hnone => ?_)
      rcases hq with hq | hq
      · rw [NsState.blob, hnone] at hq
        cases hq.2
      · rcases written_own.mp hq with hx | hx
        · rw [hp] at hx
          cases hx.2
        · exact hi.notWritten hx
    · refine .inr ?_
      simp only [mem_add, mem_singleton, Claim.todo.injEq, heq, false_or] at htd ⊢
      exact htd

/-! An `unref` leaves the files and the locks alone and queues what it has counted down to zero. -/

theorem unref_queues (h : ContentHash) (s : NsState) :
    ∃ refs, ValueStore.unref h s = { s with refs, pendingDelete := s.pendingDelete ++ if (dec h s).1
        then [h] else [] } := by
  cases hr : s.refs[h]? with
  | none => exact ⟨s.refs, by simp [ValueStore.unref, dec, hr]⟩
  | some c =>
    by_cases hc : c - 1 = 0
    · exact ⟨s.refs.erase h, by simp [ValueStore.unref, dec, hr, hc]⟩
    · exact ⟨s.refs.insert h (c - 1), by simp [ValueStore.unref, dec, hr, hc]⟩

theorem dec_last (hpos : 0 < refcount s h) (hzero : refcount (ValueStore.unref h s) h = 0) :
    (dec h s).1 = true := by
  rw [refcount_unref] at hzero
  simp only [List.count_cons_self, List.count_nil] at hzero
  unfold dec
  cases hr : s.refs[h]? with
  | none => simp [refcount, Std.ExtTreeMap.getD_eq_getD_getElem?, hr] at hpos
  | some c =>
    have hc : refcount s h = c := by simp [refcount, Std.ExtTreeMap.getD_eq_getD_getElem?, hr]
    have hone : c - 1 = 0 := by omega
    simp [hone]

/-- A reference goes. -/
theorem Collecting.unref (hi : Collecting C f g s) (h : ContentHash) :
    Collecting C f (Ledger.note (.inr (.drops h)) s g) (ValueStore.unref h s) := by
  have hcount : ∀ h', refcount (ValueStore.unref h s) h' = refcount s h' - [h].count h' :=
    fun h' => refcount_unref h h' s
  have hle : ∀ h', refcount (ValueStore.unref h s) h' ≤ refcount s h' :=
    fun h' => by rw [hcount]; omega
  obtain ⟨refs, heq⟩ := unref_queues h s
  have hdisk : (ValueStore.unref h s).disk = s.disk := by rw [heq]
  have hpending : (ValueStore.unref h s).pendingDelete = s.pendingDelete ++ if (dec h s).1 then [h]
    else [] := by rw [heq]
  have hblob : ∀ h', (ValueStore.unref h s).blob h' = s.blob h' :=
    fun h' => by rw [NsState.blob, hdisk, NsState.blob]
  refine ⟨by rw [heq]; exact hi.quiet, by rw [hdisk]; exact hi.files,
    by rw [heq]; exact hi.locked, hi.alone,
    fun h' p hm => ?_, fun h' hpos => ?_, fun h' => ?_, fun h' hq => ?_⟩
  · have hp := hi.phases h' p hm
    cases p with
    | idle => trivial
    | begun => exact (hle h').trans hp
    | ready => exact ⟨(hle h').trans hp.1, by rw [hdisk]; exact hp.2⟩
    | opened ino => exact ⟨(hle h').trans hp.1, by rw [hdisk]; exact hp.2⟩
    | wrote =>
      obtain ⟨v, hv, hc⟩ := hp
      exact ⟨v, (hblob h').trans hv, hc⟩
    | doomed => exact Nat.le_zero.mp ((hle h').trans (Nat.le_of_eq hp))
    | gone => exact (congrArg (fun d : Disk => d.blobs[h']?) hdisk).trans hp
  · exact (hi.sound h' (Nat.lt_of_lt_of_le hpos (hle h'))).imp_left fun ⟨v, hv, hc⟩ =>
      ⟨v, (hblob h').trans hv, hc⟩
  · have hc := hi.count h'
    show _ + Function.update g.dropped h (g.dropped h + min 1 (refcount s h)) h' = g.returned h' + _
    rw [hcount]
    by_cases heq : h' = h
    · subst heq
      simp only [update_self, List.count_cons_self, List.count_nil]
      omega
    · rw [update_of_ne heq, List.count_eq_zero_of_not_mem (by simpa using heq)]
      exact hc
  · rw [hblob] at hq
    rw [hpending, List.mem_append]
    -- a blob that is queued now is in the queue; any other one was tracked before
    by_cases hlast : h' = h ∧ (dec h s).1 = true
    · obtain ⟨rfl, hdead⟩ := hlast
      exact .inr (.inl (.inr (by simp [hdead])))
    · have hold : h' ∈ g.queued ∧ (s.blob h').isSome ∨ Written f h' := by
        refine hq.imp_left fun hx => ⟨?_, hx.2⟩
        have hmem : h' ∈ (if (dec h s).1 then h :: g.queued else g.queued) := hx.1
        split at hmem
        · rename_i hdead
          exact (List.mem_cons.mp hmem).resolve_left fun he => hlast ⟨he, hdead⟩
        · exact hmem
      rcases hi.track h' hold with hpos | hpend | htd
      · refine .inl (Nat.pos_of_ne_zero fun hzero => hlast ?_)
        by_cases heq : h' = h
        · subst heq
          exact ⟨rfl, dec_last hpos hzero⟩
        · rw [hcount, List.count_eq_zero_of_not_mem (by simpa using heq)] at hzero
          omega
      · exact .inr (.inl (.inl hpend))
      · exact .inr (.inr htd)

/-- A collector's list. -/
def todos (hs : List ContentHash) : Multiset Claim := (hs.map Claim.todo : List Claim)

theorem todos_cons (h : ContentHash) (hs : List ContentHash) :
    todos (h :: hs) = {.todo h} + todos hs := rfl

/-- The queue becomes the list of a collector. -/
theorem Collecting.drain (hi : Collecting C f g s) :
    Collecting C (todos s.pendingDelete + f) g { s with pendingDelete := [] } := by
  have hmem : ∀ {c}, (∀ h, c ≠ .todo h) → (c ∈ todos s.pendingDelete + f ↔ c ∈ f) := by
    intro c hc
    rw [mem_add]
    refine or_iff_right fun hm => ?_
    obtain ⟨h, -, rfl⟩ := List.mem_map.mp (mem_coe.mp hm)
    exact hc h rfl
  have hstripes : ∀ hs :
      List ContentHash, (todos hs + f).filterMap Claim.stripe = f.filterMap Claim.stripe := by
    intro hs
    induction hs with
    | nil => exact congrArg _ (zero_add f)
    | cons h hs ih => rw [todos_cons, add_assoc, stripes_other rfl, ih]
  have hrefs : ∀ (hs : List ContentHash) h, refsIn (todos hs) h = 0 := by
    intro hs h
    induction hs with
    | nil => rfl
    | cons h' hs ih => rw [todos_cons, refsIn_add, ih, refsIn_singleton]; rfl
  have hwritten : ∀ h, Written (todos s.pendingDelete + f) h ↔ Written f h := fun h =>
    exists_congr fun q => and_congr_right fun _ => hmem (by simp)
  refine ⟨hi.quiet, hi.files,
    fun n => by rw [hstripes]; exact hi.locked n, by rw [hstripes]; exact hi.alone,
    fun h p hm => ?_, fun h hpos => ?_, fun h => ?_, fun h hq => ?_⟩
  · have hp := hi.phases h p ((hmem (by simp)).mp hm)
    cases p <;> exact hp
  · rw [hwritten]
    exact hi.sound h hpos
  · rw [refsIn_add, hrefs, zero_add]
    exact hi.count h
  · rw [hwritten] at hq
    rcases hi.track h hq with hpos | hpend | htd
    · exact .inl hpos
    · exact .inr (.inr (mem_add.mpr (.inl (mem_coe.mpr (List.mem_map_of_mem hpend)))))
    · exact .inr (.inr (mem_add.mpr (.inr htd)))

/-- A put returns. -/
theorem Collecting.returned (hi : Collecting C ({.has h} + f) g s) :
    Collecting C f (Ledger.note (.inr (.returned (.ok h))) s g) s := by
  have hwritten : ∀ h', Written ({.has h} + f) h' ↔ Written f h' :=
    fun h' => written_other fun _ _ => by simp
  have hstripes :
    ({.has h} + f : Multiset Claim).filterMap Claim.stripe = f.filterMap Claim.stripe :=
    stripes_other rfl
  refine ⟨hi.quiet, hi.files,
    fun n => by rw [← hstripes]; exact hi.locked n, by rw [← hstripes]; exact hi.alone,
    fun h' p hm => hi.phases h' p (mem_add.mpr (.inr hm)), fun h' hpos => ?_, fun h' => ?_,
      fun h' hq => ?_⟩
  · rw [← hwritten]
    exact hi.sound h' hpos
  · have hc := hi.count h'
    show _ + g.dropped h' = Function.update g.returned h (g.returned h + 1) h' + _
    rw [refsIn_add, refsIn_singleton] at hc
    by_cases heq : h' = h
    · subst heq
      simp only [Claim.refs, if_true, update_self] at hc ⊢
      omega
    · rw [update_of_ne heq]
      simp only [Claim.refs, Ne.symm heq, if_false, zero_add] at hc
      exact hc
  · have hold := hi.track h'
    rw [hwritten] at hold
    simpa using hold hq

end invariant

/-! ## The code of the store -/

abbrev collecting (C : ContentHash → Bytes → Prop) :
    Regime NsState (Point ⊕ BlobNote) Ledger Claim :=
  .plain bookkeeping (Collecting C)

/-- The regime as the code of the store sees it. -/
abbrev collectingBy (C : ContentHash → Bytes → Prop) : Regime NsState Point Ledger Claim :=
  (collecting C).via .inl

section code
variable {C : ContentHash → Bytes → Prop} {h : ContentHash} {p p' : Phase} {α : Type}

theorem Collecting.same {M : Multiset Claim} {g : Ledger} {s s' : NsState} (hi : Collecting C M g s)
    (hs : SameStore s s') (hlocks : s'.fileLocks = s.fileLocks) : Collecting C M g s' :=
  hi.exchange hs (by rw [hlocks]; exact hi.locked) hi.alone hi.phases (fun _ => Iff.rfl)
    (fun _ => rfl)
    fun _ _ htd => .inr htd

theorem triple_lockBlob : Triple (collectingBy C) 0 (lockFile h) (Owning {.holds h .idle}) := by
  intro f g s hi
  rw [zero_add] at hi
  simp only [lockFile, acquire, wpi_seq, wpi_gets]
  cases hl : s.fileLocks (flockIdx h) with
  | false => exact fun _ => ⟨_, hi.lock hl, rfl⟩
  | true =>
    rw [if_pos rfl]
    intro _
    refine ⟨0, by rw [zero_add]; exact hi, trivial, fun f g s hi hfree => ?_⟩
    rw [zero_add] at hi
    exact fun _ => ⟨_, hi.lock (by simpa using hfree), rfl⟩

/-- A request of the holder of a stripe. -/
theorem triple_request {op : Disk → Except IoError α × Disk} {next : α → Phase}
    (hstep : ∀ f g s, Collecting C ({.holds h p} + f) g s → ∃ a, (op s.disk).1 = .ok a
      ∧ Collecting C ({.holds h (next a)} + f) g (s.after (op s.disk).2)) :
    Triple (collectingBy C) {.holds h p} (io op) fun r own => ∃ a, r = .ok a
        ∧ own = {.holds h (next a)} := by
  refine Triple.seq Triple.yield ?_
  rintro _ _ rfl
  have hperform : Triple (collectingBy C) {.holds h p} (Prog.step (perform op)) fun r own =>
      ∃ a, r = .ok a ∧ own = {.holds h (next a)} := by
    intro f g s hi
    obtain ⟨a, ha, hi'⟩ := hstep f g s hi
    rw [wpi_step, perform_quiet hi.quiet]
    exact ⟨_, hi', a, ha, rfl⟩
  refine Triple.seq hperform ?_
  rintro r _ ⟨a, rfl, rfl⟩
  refine Triple.seq Triple.yield ?_
  rintro _ _ rfl
  exact .ret ⟨a, rfl, rfl⟩

/-- The result of a request inside a function that returns a `Result`. -/
theorem triple_onward {β : Type} {q : Task (Except IoError α)} {k : α → Act β} {next : α → Phase}
    {post : Except EngineError β → Multiset Claim → Prop}
    (hq : Triple (collectingBy C) {.holds h p} q fun r own => ∃ a, r = .ok a
      ∧ own = {.holds h (next a)})
    (hk : ∀ a, Triple (collectingBy C) {.holds h (next a)} (k a).run post) :
    Triple (collectingBy C) {.holds h p} (ioAct q >>= k).run post := by
  have hact : Triple (collectingBy C) {.holds h p} (ioAct q).run fun r own => ∃ a, r = .ok a
      ∧ own = {.holds h (next a)} := by
    refine Triple.seq hq ?_
    rintro r _ ⟨a, rfl, rfl⟩
    exact .ret ⟨a, rfl, rfl⟩
  refine Triple.run_seq hact ?_ ?_
  · rintro a _ ⟨_, heq, rfl⟩
    cases heq
    exact hk a
  · rintro e _ ⟨_, heq, -⟩
    cases heq

theorem Collecting.idleRequest {f : Multiset Claim} {g : Ledger} {s : NsState}
    (hi : Collecting C ({.holds h p} + f) g s) :
    Collecting C ({.holds h p} + f) g (s.after s.disk) := hi.same ⟨rfl, rfl, rfl, rfl⟩ rfl

/-- A request that changes nothing, such as an fsync. -/
theorem triple_idleRequest :
    Triple (collectingBy C) {.holds h p} (io fun d => (.ok (), d)) fun r own =>
    ∃ _ : Unit, r = .ok () ∧ own = {.holds h p} :=
  triple_request fun _ _ _ hi => ⟨(), rfl, hi.idleRequest⟩

/-! ### Puts -/

section puts
variable {f : Multiset Claim} {g : Ledger} {s : NsState}

theorem Collecting.tracked (hi : Collecting C ({.holds h p} + f) g s) (hw : p.writing = true) :
    0 < refcount s h ∨ h ∈ s.pendingDelete ∨ .todo h ∈ f := by
  have hold := hi.track h (.inr (written_own.mpr (.inl ⟨rfl, hw⟩)))
  rwa [todo_own] at hold

theorem elsewhere_takeRef (h : ContentHash) (s : NsState) : Elsewhere h s (takeRef h s).2 where
  count h' hne := by
    rw [refcount_takeRef, List.count_eq_zero_of_not_mem (by simpa using hne)]
    rfl
  name _ _ := rfl
  bytes _ _ _ _ := rfl
  dir := id

theorem refcount_takeRef_self (h : ContentHash) (s : NsState) :
    refcount (takeRef h s).2 h = refcount s h + 1 := by
  rw [refcount_takeRef, List.count_cons_self, List.count_nil]

/-- The first reference: the blob has to be written. -/
theorem Collecting.takeFirst (hi : Collecting C ({.holds h .idle} + f) g s)
    (hzero : refcount s h = 0) :
    Collecting C ({.holds h .begun} + f) g (takeRef h s).2 := by
  have hone := refcount_takeRef_self h s
  refine hi.move rfl rfl rfl hi.files (elsewhere_takeRef h s) ?_ hone (fun _ => .inr rfl)
    fun _ => .inl ?_
  · show refcount (takeRef h s).2 h ≤ 1
    omega
  · omega

/-- Another reference: nobody is writing the blob, for the stripe is ours. -/
theorem Collecting.takeAgain (hi : Collecting C ({.holds h .idle} + f) g s)
    (hpos : 0 < refcount s h) :
    Collecting C ({.holds h .wrote} + f) g (takeRef h s).2 := by
  have hcomplete : Complete C s h :=
    (hi.sound h hpos).resolve_right fun hw =>
      (written_own.mp hw).elim (fun hx => by cases hx.2) hi.notWritten
  refine hi.move rfl rfl rfl hi.files (elsewhere_takeRef h s) hcomplete (refcount_takeRef_self h s)
    (fun _ => .inl hcomplete) fun _ => .inl ?_
  rw [refcount_takeRef_self]
  omega

theorem Collecting.makeDir (hi : Collecting C ({.holds h .begun} + f) g s) :
    Collecting C ({.holds h .ready} + f) g (s.after { s.disk with valuesDir := true }) := by
  refine hi.move rfl rfl rfl ⟨hi.files.named, hi.files.apart, fun _ => rfl⟩
    ⟨fun _ _ => rfl, fun _ _ => rfl, fun _ _ _ _ => rfl, fun _ => rfl⟩ ⟨hi.ok, rfl⟩ rfl
    (fun _ => .inr rfl) fun _ => ?_
  exact hi.tracked rfl

/-- Another blob has another file. -/
theorem BlobFiles.other {d : Disk} (hd : BlobFiles d) {h h' : ContentHash} {ino ino' : Nat}
    (hb : d.blobs[h]? = some ino)
    (hb' : d.blobs[h']? = some ino') (hne : h' ≠ h) : ino' ≠ ino := by
  rintro rfl
  exact hne (hd.apart hb' hb)

/-- The file is there and is truncated. -/
theorem Collecting.truncate {ino : Nat} (hi : Collecting C ({.holds h .ready} + f) g s)
    (hb : s.disk.blobs[h]? = some ino) :
    Collecting C ({.holds h (.opened ino)} + f) g (s.after (s.disk.setBytes ino [])) := by
  refine hi.move rfl rfl rfl ⟨hi.files.named, hi.files.apart, hi.files.dir⟩
    ⟨fun _ _ => rfl, fun _ _ => rfl, fun h' ino' hne hb' => ?_, id⟩
    ⟨hi.ok.1, hb, Disk.inodes_setBytes ..⟩ rfl
    (fun _ => .inr rfl) fun _ => hi.tracked rfl
  exact Disk.inodes_setBytes_of_ne _ _ (hi.files.other hb hb' hne)

/-- The file is created. -/
theorem Collecting.create (hi : Collecting C ({.holds h .ready} + f) g s) :
    Collecting C ({.holds h (.opened s.disk.nextIno)} + f) g
      (s.after { s.disk with
        inodes := Function.update s.disk.inodes s.disk.nextIno []
        nextIno := s.disk.nextIno + 1
        blobs := s.disk.blobs.insert h s.disk.nextIno }) := by
  have hname : ∀ h', (s.disk.blobs.insert h s.disk.nextIno)[h']?
      = if h = h' then some s.disk.nextIno else s.disk.blobs[h']? := fun h' => by
    simp [Std.ExtTreeMap.getElem?_insert]
  refine hi.move rfl rfl rfl ⟨fun {h' ino'} hb' => ?_, fun {h₁ h₂ ino'} hb₁ hb₂ => ?_,
    fun _ => hi.ok.2⟩
    ⟨fun _ _ => rfl, fun h' hne => (hname h').trans (if_neg (Ne.symm hne)),
      fun h' ino' hne hb' => ?_, id⟩
    ⟨hi.ok.1, (hname h).trans (if_pos rfl), update_self ..⟩ rfl (fun _ => .inr rfl) fun _ =>
    hi.tracked rfl
  · have hb' := (hname h').symm.trans hb'
    show ino' < s.disk.nextIno + 1
    split at hb'
    · cases hb'
      omega
    · exact (hi.files.named hb').trans (Nat.lt_succ_self _)
  · have hb₁ := (hname h₁).symm.trans hb₁
    have hb₂ := (hname h₂).symm.trans hb₂
    split at hb₁ <;> split at hb₂
    · rename_i he₁ he₂
      exact he₁.symm.trans he₂
    · cases hb₁
      exact absurd (hi.files.named hb₂) (lt_irrefl _)
    · cases hb₂
      exact absurd (hi.files.named hb₁) (lt_irrefl _)
    · exact hi.files.apart hb₁ hb₂
  · exact update_of_ne (Nat.ne_of_lt (hi.files.named hb')) _ _

theorem Collecting.openBlob (hi : Collecting C ({.holds h .ready} + f) g s) :
    ∃ ino, (openBlob h s.disk).1 = .ok ino
      ∧ Collecting C ({.holds h (.opened ino)} + f) g
      (s.after (ValueStore.openBlob h s.disk).2) := by
  unfold ValueStore.openBlob
  rw [if_pos hi.ok.2]
  cases hb : s.disk.blobs[h]? with
  | some ino => exact ⟨ino, rfl, hi.truncate hb⟩
  | none => exact ⟨s.disk.nextIno, rfl, hi.create⟩

/-- The bytes go into the empty file. -/
theorem Collecting.fill {ino : Nat} {value : Bytes} {s' : NsState}
    (hi : Collecting C ({.holds h (.opened ino)} + f) g s)
    (hC : C h value) (hdisk : s'.disk = s.disk.writeAt ino 0 value) (hrefs : s'.refs = s.refs)
    (hfault : s'.fault = s.fault) (hlocks : s'.fileLocks = s.fileLocks)
    (hpending : s'.pendingDelete = s.pendingDelete) :
    Collecting C ({.holds h .wrote} + f) g s' := by
  obtain ⟨-, hb, hempty⟩ := hi.ok
  have hcount : ∀ h', refcount s' h' = refcount s h' := fun h' => by rw [refcount, hrefs, refcount]
  have hbytes : (s.disk.writeAt ino 0 value).inodes ino = value := by
    rw [Disk.writeAt, Disk.inodes_setBytes, hempty]
    exact Bytes.writeAt_end value rfl
  have hcomplete : Complete C s' h := by
    refine ⟨value, ?_, hC⟩
    rw [NsState.blob, hdisk]
    show (s.disk.blobs[h]?).map (s.disk.writeAt ino 0 value).inodes = some value
    rw [hb]
    exact congrArg some hbytes
  refine hi.move hfault hlocks hpending
    (by rw [hdisk]; exact ⟨hi.files.named, hi.files.apart, hi.files.dir⟩)
    ⟨fun h' _ => hcount h',
      fun _ _ => by rw [hdisk]; rfl, fun h' ino' hne hb' => ?_, fun hd => by rw [hdisk]; exact hd⟩
    hcomplete (by rw [hcount]; rfl) (fun _ => .inl hcomplete) fun _ => ?_
  · rw [hdisk]
    exact Disk.inodes_setBytes_of_ne _ _ (hi.files.other hb hb' hne)
  · rw [hcount]
    exact hi.tracked rfl

theorem triple_fill {ino : Nat} {value : Bytes} (hC : C h value)
    (hsize : value.length ≤ maxFileSize) :
    Triple (collectingBy C) {.holds h (.opened ino)} (writeAllAt ino 0 value) fun r own =>
      ∃ _ : Unit, r = .ok () ∧ own = {.holds h .wrote} := by
  have hsubmit :
    Triple (collectingBy C) {.holds h (.opened ino)} (Prog.step (submitWrite ino 0 value))
      (Owning {.holds h (.opened ino)}) :=
      fun f g s hi => ⟨_, hi.same ⟨rfl, rfl, rfl, rfl⟩ rfl, rfl⟩
  refine Triple.seq hsubmit ?_
  rintro req _ rfl
  refine Triple.seq Triple.yield ?_
  rintro _ _ rfl
  have hmark : Triple (collectingBy C) {.holds h (.opened ino)} (Prog.at_ (.write 0 value.length))
      (Owning {.holds h (.opened ino)}) := fun f g s hi _ => ⟨_, hi, rfl⟩
  refine Triple.seq hmark ?_
  rintro _ _ rfl
  have hperform :
    Triple (collectingBy C) {.holds h (.opened ino)} (Prog.step (performWrite req ino 0 value))
      fun r own => r = .ok () ∧ own = {.holds h .wrote} := by
    intro f g s hi
    have hfits : ¬ 0 + value.length > maxFileSize := by omega
    rw [wpi_step]
    simp only [performWrite, hi.quiet, hfits, if_false]
    exact ⟨_, hi.fill hC rfl rfl rfl rfl rfl, rfl, rfl⟩
  refine Triple.seq hperform ?_
  rintro r _ ⟨rfl, rfl⟩
  refine Triple.seq Triple.yield ?_
  rintro _ _ rfl
  have hreap : Triple (collectingBy C) {.holds h .wrote} (Prog.modify (reapWrite req))
    (Owning {.holds h .wrote}) :=
    fun f g s hi => ⟨_, hi.same ⟨rfl, rfl, rfl, rfl⟩ rfl, rfl⟩
  refine Triple.seq hreap ?_
  rintro _ _ rfl
  exact .ret ⟨(), rfl, rfl⟩

theorem Collecting.blobDir (hi : Collecting C ({.holds h .wrote} + f) g s) :
    s.disk.valuesDir = true := by
  obtain ⟨v, hv, -⟩ := hi.ok
  obtain ⟨ino, hb, -⟩ := Option.map_eq_some_iff.mp hv
  exact hi.files.dir hb

/-- The blob is written, whole. -/
theorem triple_writeBlob {value : Bytes} (hC : C h value) (hsize : value.length ≤ maxFileSize) :
    Triple (collectingBy C) {.holds h .begun} (writeBlobDurable h value).run fun r own =>
      r = .ok () ∧ own = {.holds h .wrote} := by
  have hmk : Triple (collectingBy C) {.holds h .begun}
      (io fun d => ((.ok () : Except IoError Unit), { d with valuesDir := true }))
      fun r own => ∃ _ : Unit, r = .ok () ∧ own = {.holds h .ready} :=
    triple_request fun _ _ _ hi => ⟨(), rfl, hi.makeDir⟩
  have hdir : Triple (collectingBy C) {.holds h .wrote}
      (io fun d => if d.valuesDir then ((.ok () : Except IoError Unit), d)
        else (.error .notFound, d))
      fun r own => ∃ _ : Unit, r = .ok () ∧ own = {.holds h .wrote} := by
    refine triple_request fun f g s hi => ⟨(), ?_, ?_⟩
    · rw [if_pos hi.blobDir]
    · rw [if_pos hi.blobDir]
      exact hi.idleRequest
  refine triple_onward hmk fun _ => triple_onward (triple_request fun _ _ _ hi => hi.openBlob)
    fun ino =>
    triple_onward (triple_fill hC hsize) fun _ => triple_onward triple_idleRequest fun _ => ?_
  refine Triple.run_lift_seq triple_idleRequest ?_
  rintro _ _ ⟨-, -, rfl⟩
  refine triple_onward hdir fun _ => ?_
  refine Triple.seq triple_idleRequest ?_
  rintro _ _ ⟨-, rfl, rfl⟩
  exact .ret ⟨rfl, rfl⟩

theorem triple_putBlob {P : Prims} {value : Bytes} (hC : C (P.contentHash value) value)
    (hsize : value.length ≤ maxFileSize) :
    Triple (collectingBy C) 0 (ValueStore.put P value).run fun r own =>
      r = .ok (P.contentHash value) ∧ own = {.has (P.contentHash value)} := by
  let h := P.contentHash value
  refine Triple.run_lift_seq triple_lockBlob ?_
  rintro _ _ rfl
  refine Triple.seq (?_ : Triple _ _ _ fun r own => r = .ok h ∧ own = {.holds h .wrote}) ?_
  · have htake : Triple (collectingBy C) {.holds h .idle} (Prog.step (takeRef h)) fun first own =>
        (first = true ∧ own = {.holds h .begun}) ∨ (first = false ∧ own = {.holds h .wrote}) := by
      intro f g s hi
      rcases Nat.eq_zero_or_pos (refcount s h) with hzero | hpos
      · exact ⟨_, hi.takeFirst hzero, .inl ⟨by simp [takeRef, hzero], rfl⟩⟩
      · exact ⟨_, hi.takeAgain hpos, .inr ⟨by simp [takeRef]; omega, rfl⟩⟩
    refine Triple.run_lift_seq htake ?_
    rintro first own (⟨rfl, rfl⟩ | ⟨rfl, rfl⟩)
    · refine Triple.run_seq (?_ : Triple _ _ _ fun r own => r = .ok ()
        ∧ own = {.holds h .wrote}) ?_ ?_
      · refine Triple.seq (triple_writeBlob hC hsize) ?_
        rintro _ _ ⟨rfl, rfl⟩
        exact .ret ⟨rfl, rfl⟩
      · rintro _ _ ⟨-, rfl⟩
        exact .ret ⟨rfl, rfl⟩
      · rintro e _ ⟨heq, -⟩
        cases heq
    · exact .ret ⟨rfl, rfl⟩
  rintro r _ ⟨rfl, rfl⟩
  have hunlock : Triple (collectingBy C) {.holds h .wrote} (Prog.modify (unlockFile h))
    (Owning {.has h}) :=
    fun f g s hi => ⟨_, hi.unlock rfl, rfl⟩
  refine Triple.seq hunlock ?_
  rintro _ _ rfl
  have hdrop : Triple (collectingBy C) {.has h} (dropAll [.blob (flockIdx h)]) (Owning {.has h}) :=
    fun f g s hi _ => ⟨_, hi, rfl⟩
  refine Triple.seq hdrop ?_
  rintro _ _ rfl
  exact .ret ⟨rfl, rfl⟩

end puts

/-! ### Collections -/

theorem Collecting.unlink {f : Multiset Claim} {g : Ledger} {s : NsState}
    (hi : Collecting C ({.holds h .doomed} + f) g s) :
    Collecting C ({.holds h .gone} + f) g
        (s.after { s.disk with blobs := s.disk.blobs.erase h }) := by
  have hname : ∀ h', (s.disk.blobs.erase h)[h']? = if h = h' then none else s.disk.blobs[h']? :=
      fun h' => by
    simp [Std.ExtTreeMap.getElem?_erase]
  have hkept : ∀ {h' : ContentHash} {ino : Nat}, (s.disk.blobs.erase h)[h']? = some ino →
      s.disk.blobs[h']? = some ino := by
    intro h' ino hb
    rw [hname] at hb
    split at hb
    · cases hb
    · exact hb
  have hgone : (s.disk.blobs.erase h)[h]? = none := (hname h).trans (if_pos rfl)
  have hzero : refcount s h = 0 := hi.ok
  refine hi.move rfl rfl rfl
    ⟨fun hb => hi.files.named (hkept hb), fun hb hb' => hi.files.apart (hkept hb) (hkept hb'),
    fun hb => hi.files.dir (hkept hb)⟩
      ⟨fun _ _ => rfl, fun h' hne => (hname h').trans (if_neg (Ne.symm hne)),
      fun _ _ _ _ => rfl, id⟩ hgone rfl (fun hpos => ?_) fun hq => ?_
  · exact absurd hpos (Nat.not_lt.mpr (Nat.le_of_eq hzero))
  · rcases hq with hq | hq
    · have hnone : (s.after { s.disk with blobs := s.disk.blobs.erase h }).blob h = none := by
        show ((s.disk.blobs.erase h)[h]?).map _ = none
        rw [hgone]
        rfl
      rw [hnone] at hq
      cases hq.2
    · cases hq

/-- The collector's lock is released. -/
theorem triple_unlockBlob {f : Multiset Claim} {g : Ledger} {s : NsState}
    (hi : Collecting C ({.holds h p} + f) g s)
    (hp : p.writing = false) (hrefs : p.refs = 0) :
    wpi (collectingBy C) (do Prog.modify (unlockFile h); Prog.at_ (.drops (.blob (flockIdx h))))
      (Gives (collectingBy C) (Owning 0)) f g s := by
  have hout := hi.unlock hp
  rw [Phase.leaves, if_neg (by omega)] at hout
  exact fun _ => ⟨0, hout, rfl⟩

theorem triple_collect : Triple (collectingBy C) {.todo h} (collect h) (Owning 0) := by
  have hlock := (triple_lockBlob (C := C) (h := h)).frame (fun _ _ _ _ => trivial) {.todo h}
  rw [zero_add] at hlock
  refine Triple.seq hlock ?_
  rintro _ _ ⟨_, rfl, rfl⟩ f g s hi
  rw [add_assoc] at hi
  simp only [wpi_seq, wpi_gets]
  by_cases hzero : refcount s h = 0
  · rw [if_pos hzero]
    have hrequest : Triple (collectingBy C) {.holds h .doomed}
        (io fun d => ((.ok () : Except IoError Unit), { d with blobs := d.blobs.erase h }))
        fun r own => ∃ _ : Unit, r = .ok () ∧ own = {.holds h .gone} :=
      triple_request fun _ _ _ hi => ⟨(), rfl, hi.unlink⟩
    have hdoomed : Collecting C ({.holds h .doomed} + {.todo h} + f) g s := by
      rw [add_assoc]
      exact hi.phase hzero rfl rfl
    rw [wpi_seq]
    refine wpi_mono (hrequest.frame (fun _ _ _ _ => trivial) {.todo h} f g s hdoomed) ?_
    rintro r f g s ⟨_, hi, _, rfl, -, rfl, rfl⟩
    rw [add_assoc] at hi
    exact triple_unlockBlob (hi.settle rfl (.inr hi.ok)) rfl rfl
  · rw [if_neg hzero]
    exact triple_unlockBlob (hi.settle rfl (.inl (Nat.pos_of_ne_zero hzero))) rfl rfl

theorem triple_collectAll (hs : List ContentHash) :
    Triple (collectingBy C) (todos hs) (collectAll hs) (Owning 0) := by
  induction hs with
  | nil => exact .ret rfl
  | cons h hs ih =>
    rw [todos_cons]
    refine Triple.seq (triple_collect.frame (fun _ _ _ _ => trivial) (todos hs)) ?_
    rintro _ _ ⟨_, rfl, rfl⟩
    rw [zero_add]
    exact ih

theorem triple_collectGarbage : Triple (collectingBy C) 0 collectGarbage (Owning 0) := by
  have hdrain :
    Triple (collectingBy C) 0 (Prog.step fun s => (s.pendingDelete, { s with pendingDelete := [] }))
      fun hs own => own = todos hs := by
    intro f g s hi
    rw [zero_add] at hi
    exact ⟨_, hi.drain, rfl⟩
  refine Triple.seq hdrain ?_
  rintro hs _ rfl
  exact triple_collectAll hs

end code

/-! ## A collection alone -/

theorem wpc_collectAll_exact {hs : List ContentHash} {s : NsState} {Q : Unit → NsState → Prop}
    (hf : ∀ n, s.fault n = none) (hlock : ∀ i, s.fileLocks i = false)
    (hok : ∀ s', s'.refs = s.refs → (∀ h, s'.disk.blobs[h]?
      = if h ∈ hs ∧ refcount s h = 0 then none else s.disk.blobs[h]?) → Q () s') :
    wpc Anywhere (collectAll hs) Q s := by
  induction hs generalizing s with
  | nil => exact (wpc_pure _ _ _).mpr (hok s rfl fun h => by simp)
  | cons h hs ih =>
    have hback : Function.update (Function.update s.fileLocks (flockIdx h) true) (flockIdx h) false
        = s.fileLocks := by
      rw [update_idem, update_eq_self_iff, hlock]
    simp only [collectAll, collect, wpc_seq, lockFile]
    rw [wpc_acquire_free (hlock _)]
    simp only [wpc_gets]
    have hcount : refcount (setFileLock h true s) h = refcount s h := rfl
    rw [hcount]
    by_cases hzero : refcount s h = 0
    · simp only [hzero, if_true, wpc_seq]
      refine wpc_request hf ?_
      simp only [wpc_modify, wpc_at]
      refine ih hf (fun i => ?_) fun s' hrefs hblobs => hok s' hrefs fun h' => ?_
      · show Function.update (Function.update s.fileLocks (flockIdx h) true)
          (flockIdx h) false i = false
        rw [hback]
        exact hlock i
      · rw [hblobs h']
        show (if h' ∈ hs ∧ refcount s h' = 0 then none else (s.disk.blobs.erase h)[h']?) = _
        by_cases heq : h' = h
        · subst heq
          simp [hzero]
        · simp [heq, Ne.symm heq, Std.ExtTreeMap.getElem?_erase]
    · simp only [hzero, if_false, wpc_seq, wpc_modify, wpc_at]
      refine ih hf (fun i => ?_) fun s' hrefs hblobs => hok s' hrefs fun h' => ?_
      · show Function.update (Function.update s.fileLocks (flockIdx h) true)
          (flockIdx h) false i = false
        rw [hback]
        exact hlock i
      · rw [hblobs h']
        show (if h' ∈ hs ∧ refcount s h' = 0 then none else s.disk.blobs[h']?) = _
        by_cases heq : h' = h
        · subst heq
          simp [hzero]
        · simp [heq]

/-! ## Runs -/

/-- A store in order: no fault to come, no lock held, blobs in files of their own, and each one
that is referenced is there with a content of its hash. -/
structure StoreReady (P : Prims) (s : NsState) : Prop where
  quiet : ∀ n, s.fault n = none
  free : ∀ n, s.fileLocks n = false
  files : BlobFiles s.disk
  sound : ∀ h, 0 < refcount s h → ∃ v, s.blob h = some v ∧ P.contentHash v = h

/-- The contents that a run from `s₀` may store under a hash. -/
def ContentOf (P : Prims) (ops : List BlobOp) (s₀ : NsState) (h : ContentHash) (v : Bytes) : Prop :=
  P.contentHash v = h ∧ (.put v ∈ ops ∨ s₀.blob h = some v)

theorem BlobOp.collects {P : Prims} {ops : List BlobOp} {s₀ : NsState} {op : BlobOp}
    (hop : op ∈ ops)
    (hsize : ∀ v, .put v ∈ ops → v.length ≤ maxFileSize) :
    Triple (collecting (ContentOf P ops s₀)) 0 (op.task P) Clean := by
  cases op with
  | put value =>
    have hC : ContentOf P ops s₀ (P.contentHash value) value := ⟨rfl, .inl hop⟩
    refine Triple.seq (fun f g s hi => wpi_relabel (triple_putBlob hC (hsize value hop) f g s hi))
      ?_
    rintro _ _ ⟨rfl, rfl⟩ f g s hi _
    exact ⟨0, by rw [zero_add]; exact hi.returned, rfl⟩
  | unref h =>
    intro f g s hi
    rw [zero_add] at hi
    exact fun _ => ⟨0, by rw [zero_add]; exact hi.unref h, rfl⟩
  | collect => exact fun f g s hi => wpi_relabel (triple_collectGarbage f g s hi)

theorem StoreReady.collecting {P : Prims} {ops : List BlobOp} {s₀ : NsState}
    (hs : StoreReady P s₀) :
    Collecting (ContentOf P ops s₀) 0 (.start s₀) s₀ where
  quiet := hs.quiet
  files := hs.files
  locked n := by simp [hs.free n]
  alone := nodup_zero
  phases _ _ hm := by simp at hm
  sound h hpos := by
    obtain ⟨v, hv, hh⟩ := hs.sound h hpos
    exact .inl ⟨v, hv, hh, .inr hv⟩
  count _ := rfl
  track h hq := by
    rcases hq with hq | ⟨_, -, hm⟩
    · exact .inr (.inl hq.1)
    · simp at hm

/-- **The collector spares what is referenced.** Puts, unrefs and collections of any contents run
interleaved in any way, without I/O errors. Whenever more puts of a hash have returned than
references to it were dropped, its blob is on disk and holds the content of that hash, one that
was put; and once all calls have ended and a last collection has run, no blob that was ever
queued and has no references is left. -/
theorem collector_spares_live_blobs (P : Prims) {ops : List BlobOp} {s₀ : NsState}
    (hs : StoreReady P s₀)
    (hsize : ∀ v, .put v ∈ ops → v.length ≤ maxFileSize)
    {w : Pool NsState (Point ⊕ BlobNote) Ledger}
    (hrun : Runs bookkeeping (.of (ops.map (BlobOp.task P)) (.start s₀) s₀) w) :
    (∀ h, w.ghost.dropped h < w.ghost.returned h → ∃ v, w.state.blob h = some v
      ∧ P.contentHash v = h
        ∧ (.put v ∈ ops ∨ s₀.blob h = some v))
      ∧ (∀ h, refcount w.state h + w.ghost.dropped h ≥ w.ghost.returned h)
      ∧ (w.Ended → ∃ s', (run collectGarbage w.state).result = some ((), s')
        ∧ ∀ h ∈ w.ghost.queued, refcount s' h = 0 → s'.blob h = none) := by
  obtain ⟨M, hinv, hclean⟩ := Runs.inv (Γ := collecting (ContentOf P ops s₀)) hrun hs.collecting
      fun p hp f g s hi => by
    obtain ⟨op, hop, rfl⟩ := List.mem_map.mp hp
    exact BlobOp.collects hop hsize f g s (by rwa [zero_add])
  refine ⟨fun h hlt => ?_, fun h => ?_, fun hend => ?_⟩
  · have hcount := hinv.count h
    rcases hinv.sound h (by omega) with hc | ⟨q, hq, hm⟩
    · exact hc
    · -- the reference of a blob that is being written is that of a put that has not returned
      obtain ⟨f, rfl⟩ := exists_cons_of_mem hm
      rw [← singleton_add, refsIn_add, refsIn_singleton] at hcount
      have hok := hinv.phases h q hm
      have hone : refcount w.state h ≤ 1 := by
        cases q with
        | begun => exact hok
        | ready => exact hok.1
        | opened ino => exact hok.1
        | _ => cases hq
      have hrefs : q.refs = 1 := by
        cases q <;> first | rfl | cases hq
      simp only [Claim.refs, if_true, hrefs] at hcount
      omega
  · have hcount := hinv.count h
    omega
  · obtain rfl := hclean hend
    have hfree : ∀ i, w.state.fileLocks i = false := fun i => by
      simpa using (not_congr (hinv.locked i)).mpr (by simp)
    have hrun : wpc Anywhere collectGarbage
        (fun _ s' => ∀ h ∈ w.ghost.queued, refcount s' h = 0 → s'.blob h = none) w.state := by
      simp only [collectGarbage, wpc_seq, wpc_step]
      refine wpc_collectAll_exact hinv.quiet hfree fun s' hrefs hblobs h hq hzero => ?_
      have hzero' : refcount w.state h = 0 := by
        rw [refcount, hrefs] at hzero
        exact hzero
      have hblob : s'.disk.blobs[h]? = none := by
        rw [hblobs h]
        by_cases hmem : h ∈ w.state.pendingDelete
        · exact if_pos ⟨hmem, hzero'⟩
        · rw [if_neg fun hx => hmem hx.1]
          by_contra hsome
          have htrack := hinv.track h (.inl ⟨hq, ?_⟩)
          · rcases htrack with hpos | hp | htd
            · omega
            · exact hmem hp
            · simp at htd
          · rw [NsState.blob, Option.isSome_map]
            exact Option.isSome_iff_ne_none.mpr hsome
      rw [NsState.blob, hblob]
      rfl
    obtain ⟨-, _, s', hres, hdone⟩ := hrun
    exact ⟨s', hres, hdone⟩

/-- A store with nothing in it. -/
def emptyStore : NsState :=
  freshState .default (fun _ => 100) (fun _ => none) ⟨[], ⟨0, 0⟩, .empty⟩ Disk.empty ∅

theorem emptyStore_ready : StoreReady realPrims emptyStore := by
  have hnone : ∀ h : ContentHash, emptyStore.disk.blobs[h]? = none := fun h => by
    simp [emptyStore, freshState, Disk.empty, Std.ExtTreeMap.getElem?_filter]
  refine ⟨fun _ => rfl, fun _ => rfl,
    ⟨fun {h ino} hb => ?_, fun {h h' ino} hb _ => ?_, fun {h ino} hb => ?_⟩,
    fun h hpos => ?_⟩
  · rw [hnone] at hb
    cases hb
  · rw [hnone] at hb
    cases hb
  · rw [hnone] at hb
    cases hb
  · simp [refcount, emptyStore, freshState] at hpos

/-- A content is put, dropped, and put again while a collector unlinks its file. -/
def putDropPut : List BlobOp := [.put [0], .unref (realPrims.contentHash [0]), .collect, .put [0]]

theorem collector_spares_live_blobs_reput :
    ∃ w, StoreReady realPrims emptyStore ∧ (∀ v, .put v ∈ putDropPut → v.length ≤ maxFileSize)
      ∧ Runs bookkeeping
      (.of (putDropPut.map (BlobOp.task realPrims)) (.start emptyStore) emptyStore) w
      ∧ w.ghost.dropped (realPrims.contentHash [0]) = 1
      ∧ w.ghost.returned (realPrims.contentHash [0]) = 2
      ∧ w.state.blob (realPrims.contentHash [0]) = some [0] := by
  have hsize : ∀ v, .put v ∈ putDropPut → v.length ≤ maxFileSize := by
    intro v hv
    simp only [putDropPut, List.mem_cons, BlobOp.put.injEq, reduceCtorEq, List.not_mem_nil,
      false_or, or_false, or_self] at hv
    subst hv
    decide
  have hview :
    (schedule bookkeeping
    ((List.replicate 15 0 ++ [1, 2, 3, 2, 2] ++ List.replicate 15 3).map (·, []))
      (.of (putDropPut.map (BlobOp.task realPrims)) (.start emptyStore) emptyStore)).map
        (fun w =>
          (w.ghost.dropped (realPrims.contentHash [0]),
          w.ghost.returned (realPrims.contentHash [0]))) = some (1, 2) := by
    decide +kernel
  obtain ⟨w, hsome, heq⟩ := Option.map_eq_some_iff.mp hview
  obtain ⟨hdropped, hreturned⟩ := Prod.mk.injEq .. ▸ heq
  have hrun := runs_of_schedule .start hsome
  obtain ⟨v, hv, -, hput⟩ := (collector_spares_live_blobs realPrims emptyStore_ready hsize hrun).1
    (realPrims.contentHash [0]) (by rw [hdropped, hreturned]; decide)
  have hzero : v = [0] := by
    rcases hput with hput | hput
    · simpa [putDropPut] using hput
    · simp [NsState.blob, emptyStore, freshState, Disk.empty, Std.ExtTreeMap.getElem?_filter]
        at hput
  exact ⟨w, emptyStore_ready, hsize, hrun, hdropped, hreturned, hzero ▸ hv⟩

end BeyondKv
