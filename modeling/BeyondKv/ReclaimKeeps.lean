/-
# A reclaim changes nothing a reader sees

From every state of a history, `reclaim` ends, leaves no full level, and leaves
every key its value, metadata, revision, expiry and blob, and every blob its
reference count (`reclaim_keeps`). The histories are those of a log whose calls are
made one after another and that is always shut down cleanly. A log that was dropped
may come back with an index that a client forged (`reclaim_after_forged_footer`), and
so may one in which a put has overlapped a rotation and landed behind the footer.
-/
import BeyondKv.Reads

namespace BeyondKv

open Std (ExtTreeMap)
open Async

section reclaim
variable {P : Prims} {s s₁ s' : NsState}

theorem Reclaimed.index (h : Reclaimed P s s₁ s') : s'.index = s₁.index :=
  congrArg Core.index h.core

/-- The levels after a reclaim are those after its last merge: none is full. -/
theorem Reclaimed.level_not_full (h : Reclaimed P s s₁ s')
    (hpos : 0 < s.config.fanout) (lvl : Nat) :
    (levelIds s' lvl).length < s'.config.fanout := by
  have hsealed : s'.sealed = s₁.sealed := congrArg Core.sealed h.core
  have hids : levelIds s' lvl = levelIds s₁ lvl := by
    unfold levelIds levelOf
    rw [hsealed, h.levels]
  have hconfig : s'.config = s.config := congrArg Locks.config h.locks
  have hconfig₁ : s₁.config = s.config := congrArg Locks.config h.reclaiming.locks
  rw [hids, hconfig, ← hconfig₁]
  exact fullLevel_none h.level (hconfig₁ ▸ hpos) lvl

theorem Reclaimed.view (h : Reclaimed P s s₁ s') (k : Bytes) :
    viewAt s'.core.handles s'.disk s'.index k = viewAt s.core.handles s.disk s.index k := by
  have hdisk : s'.disk = (s₁.core.activated (maxFileId s₁ + 1)).disk := congrArg Core.disk h.core
  rw [h.core, hdisk, h.index]
  exact h.reclaiming.view_activated k

theorem Reclaimed.blob (h : Reclaimed P s s₁ s') (hash : ContentHash) :
    s'.disk.blob hash = s.disk.blob hash := by
  have hdisk : s'.disk = (s₁.disk.openCreateData (maxFileId s₁ + 1)).2 := congrArg Core.disk h.core
  rw [hdisk, openCreateData_new h.reclaiming.newId_free]
  have hsame : SameBlobs s.disk s₁.disk := h.reclaiming.blobs
  exact (hsame.trans h.reclaiming.merging.files.dir.tmpStep_alloc.toSameBlobs).blob hash

theorem Reclaimed.keyState (h : Reclaimed P s s₁ s') (hok : LogOk P s.core) (k : Bytes) :
    keyState P s' k = BeyondKv.keyState P s k :=
  keyState_congr hok h.logOk (h.view k) fun hash _ => h.blob hash

end reclaim

/-- In every state that a history of calls, one after another and with file ids to spare, reaches
from a log that is in order, a reclaim that meets no I/O error succeeds, leaves fewer than
`fanout` files on every level, and leaves for every key the same value, metadata, revision, expiry
and blob hash, with every index entry at a record of its key and revision and every reference
count as it was. -/
theorem reclaim_keeps (P : Prims) {s₀ s : NsState} (hstart : Ready P s₀)
    (hreach : Reaches P Sound s₀ s) (hroom : Roomy s) (hfan : 2 ≤ s.config.fanout) :
    ∃ r s', (run (reclaim P).run s).result = some (r, s')
      ∧ (NoIoError r →
        (∃ report, r = .ok (some report))
        ∧ (∀ lvl, (levelIds s' lvl).length < s'.config.fanout)
        ∧ (∀ k, keyState P s' k = keyState P s k)
        ∧ (∀ k, (s.index.get k).isSome → s'.index.valsep k = s.index.valsep k)
        ∧ (∀ k e, s'.index.get k = some e → ∃ f, locateFile s' e.fileId = some f
          ∧ RecAt P (s'.disk.inodes f.ino) k e (s'.index.valsep k))
        ∧ ∀ hash, ValueStore.refcount s' hash = ValueStore.refcount s hash) := by
  obtain ⟨hready, -⟩ := Reaches.invariant (I := fun _ => True) (fun _ _ h => h) hstart trivial
    (fun _ _ _ _ _ _ _ _ _ => trivial) hreach
  have hwp : wpx Anywhere (reclaim P) (fun r s' => NoIoError r →
      ∃ report s₁, r = .ok (some report) ∧ Reclaimed P s s₁ s') s := by
    refine wpx_reclaim hready.ok hready.free hfan (fun e s => noIoError_io) ?_ ?_
    · exact fun s₁ hr hid => absurd (hroom.reclaim hr) (Nat.not_le.mpr hid)
    · exact fun report s₁ s' hr _ => ⟨report, s₁, rfl, hr⟩
  obtain ⟨-, r, s', hrun, hQ⟩ := hwp
  refine ⟨r, s', hrun, fun hio => ?_⟩
  obtain ⟨report, s₁, rfl, hr⟩ := hQ hio
  refine ⟨⟨report, rfl⟩, hr.level_not_full (by omega), hr.keyState hready.ok, ?_, ?_, ?_⟩
  · intro k hk
    obtain ⟨e, he⟩ := Option.isSome_iff_exists.mp hk
    have hview := hr.view k
    simp only [viewAt, he, Option.map_some] at hview
    obtain ⟨e', he', hv⟩ := Option.map_eq_some_iff.mp hview
    exact congrArg KeyView.valueHash hv
  · intro k e hk
    obtain ⟨f, hf, hrec⟩ := hr.logOk.files.resolves hk
    exact ⟨f, (locateFile_eq s' e.fileId).trans hf, hrec⟩
  · intro hash
    simp only [ValueStore.refcount, hr.refs]

theorem reclaim_keeps_two_files :
    ∃ s₀ s, openLog realPrims smallConfig countingClock (fun _ => none) Disk.empty = .ok s₀
      ∧ Reaches realPrims Sound s₀ s ∧ s.sealed.size = 1
      ∧ ∃ r s', (run (reclaim realPrims).run s).result = some (r, s')
        ∧ (NoIoError r → ∀ k, keyState realPrims s' k = keyState realPrims s k) := by
  have hrun : ((smallLog soundly [.putFull [0x61] [0x31] [] none, .rotateActive,
      .putFull [0x61] [0x32] [] none]).map fun s => decide (s.sealed.size = 1 ∧ Roomy s
        ∧ 2 ≤ s.config.fanout)) = some true := by decide +kernel
  obtain ⟨s, hs, hprops⟩ := Option.map_eq_some_iff.mp hrun
  obtain ⟨hsize, hroom, hfan⟩ := of_decide_eq_true hprops
  obtain ⟨s₀, hopen, hreach⟩ := reaches_smallLog sound_of_soundly hs
  obtain ⟨s₀', hopen', hready, -⟩ := openLog_empty realPrims smallConfig countingClock
  cases hopen.symm.trans hopen'
  obtain ⟨r, s', hres, hkeeps⟩ := reclaim_keeps realPrims hready hreach hroom hfan
  exact ⟨s₀, s, hopen, hreach, hsize, r, s', hres, fun hio => (hkeeps hio).2.2.1⟩

/-- A value that is a footer listing key `a` at the place of the record it is in. -/
def forgedListing : Bytes := footerBytes realPrims [⟨[0x61], 0, 97, none, 1, none⟩]

/-- The key a record names. -/
def recordKey (bytes : Bytes) : Option Bytes :=
  (parseHeader bytes 0).toOption.map fun hdr => Bytes.slice bytes headerLen hdr.keySize

/-- One put of key `b`; the log is dropped, opened again and reclaimed. The reclaim succeeds,
and the index has key `a`, at the record of key `b`. -/
theorem reclaim_after_forged_footer :
    ((smallLog soundly [.putFull [0x62] forgedListing [] none]).bind fun s =>
      (openLog realPrims smallConfig countingClock (fun _ => none) s.disk).toOption.bind fun s =>
        (run (reclaim realPrims).run s).result.map fun (r, s') =>
          (r.toOption.isSome, s'.index.entries.map fun (k, e) =>
            (k, (locateFile s' e.fileId).bind fun f =>
              recordKey (Bytes.slice (s'.disk.inodes f.ino) e.recordOffset e.recordSize))))
      = some (true, [([0x61], some [0x62])]) := by
  decide +kernel

end BeyondKv
