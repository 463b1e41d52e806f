/-
# A clean restart

A log that is shut down with `seal_active_for_shutdown` and opened again has the
same keys with the same data exactly when, before the shutdown, the footers of its
sealed files named live keys only and had their expiries right
(`clean_restart_iff`). A delete, or a new expiry, of a key whose record is in a sealed
file breaks that (`deleted_key_returns`).
-/
import BeyondKv.Listing
import BeyondKv.Reads

namespace BeyondKv

open Std (ExtTreeMap)
open Async

section restart
variable {P : Prims} {s s₁ s' : NsState}
  (hseal : Leaves s (s.core.footered P) s₁)
  (hr : Restarted P s.core.handles s₁.disk s.active.fileId s')
include hseal hr

/-- The blob of a live key survives a restart. -/
theorem Restarted.blob (h : LogOk P s.core) {k : Bytes} {hash : ContentHash}
    (hk : s'.index.valsep k = some hash) : s'.disk.blob hash = s.disk.blob hash := by
  have hdisk : s₁.disk = (s.core.footered P).disk := congrArg Core.disk hseal.core
  have hblobs : s₁.disk.blobs = s.disk.blobs := by rw [hdisk]; rfl
  have hbytes : ∀ {ino : Nat}, s.disk.blobs[hash]? = some ino →
      s₁.disk.inodes ino = s.disk.inodes ino := by
    intro ino hb
    rw [hdisk]
    exact Disk.inodes_setBytes_of_ne _ _ fun heq => h.files.dir.blobApart hb
      (heq ▸ h.files.dir.logs_of_handle (handles_active s.core))
  unfold Disk.blob
  cases hb : s.disk.blobs[hash]? with
  | none =>
    cases hb' : s'.disk.blobs[hash]? with
    | none => rfl
    | some ino =>
      have hb₁ := (hr.blobs.mp hb').1
      rw [hblobs, hb] at hb₁
      cases hb₁
  | some ino =>
    have hb₁ : s₁.disk.blobs[hash]? = some ino := by rw [hblobs, hb]
    rw [hr.blobs.mpr ⟨hb₁, k, hk⟩]
    exact congrArg some ((hr.blobBytes hb₁).trans (hbytes hb))

/-- The records of the old files are where they were. -/
theorem Restarted.record (h : LogOk P s.core) {k : Bytes} {e : IndexEntry}
    (hk : s.index.get k = some e) :
    ((s'.core.handles)[e.fileId]?.map fun f =>
        Bytes.slice (s'.disk.inodes f.ino) e.recordOffset e.recordSize)
      = (s.core.handles)[e.fileId]?.map fun f =>
        Bytes.slice (s.disk.inodes f.ino) e.recordOffset e.recordSize := by
  obtain ⟨f, hf, hrec⟩ := h.files.resolves hk
  have hne : s'.active.fileId ≠ e.fileId := by
    have := h.handle_le hf
    rw [hr.active]
    exact Nat.ne_of_gt (Nat.lt_succ_of_le this)
  have hf' : s'.core.handles[e.fileId]? = some f := by
    have hS : s'.core.sealed = s.core.handles := hr.sealed
    rw [Core.handles, hS]
    simp [ExtTreeMap.getElem?_insert, hf]
    exact fun heq => absurd heq hne
  have hlogs : s₁.disk.Logs e.fileId f.ino := by
    rw [show s₁.disk = (s.core.footered P).disk from congrArg Core.disk hseal.core]
    exact h.files.dir.logs_of_handle hf
  have hbytes : Bytes.slice (s'.disk.inodes f.ino) e.recordOffset e.recordSize
      = Bytes.slice (s.disk.inodes f.ino) e.recordOffset e.recordSize := by
    rw [hr.inodes hlogs, show s₁.disk = (s.core.footered P).disk from congrArg Core.disk hseal.core]
    change Bytes.slice ((s.disk.setBytes s.active.ino _).inodes f.ino) _ _ = _
    by_cases heq : f.ino = s.active.ino
    · rw [heq, Disk.inodes_setBytes, Bytes.slice_append_left]
      · rfl
      · have := hrec.bound
        rw [heq] at this
        exact this
    · rw [Disk.inodes_setBytes_of_ne _ _ heq]
  rw [hf', hf]
  exact congrArg some hbytes

/-- A restart with the same index entries: readers see what they saw. -/
theorem Restarted.keyState (h : LogOk P s.core) (hsame : SameKeys s.index s'.index) (k : Bytes) :
    keyState P s' k = BeyondKv.keyState P s k := by
  have hget := (hsame k).1
  cases hk : s.index.get k with
  | none => simp only [BeyondKv.keyState, hget, hk, Option.map_none]
  | some e =>
    have hat := (hsame k).2 (by rw [hk]; rfl)
    have ht : s'.index.ttl k = s.index.ttl k := congrArg (fun t => t.2.1) hat
    have hv : s'.index.valsep k = s.index.valsep k := congrArg (fun t => t.2.2) hat
    refine keyState_congr h hr.ok ?_ fun hash hhash => hr.blob hseal h (hv.trans hhash)
    simp only [viewAt, hget, hk, Option.map_some, ht, hv]
    rw [hr.record hseal h hk]

/-- Readers see what they saw exactly if the footers told the truth. -/
theorem Restarted.keyState_iff (h : LogOk P s.core) (hl : s.core.Listed P)
    (hsize : (s.core.footered P).activeBytes.length ≤ maxFileSize) :
    (∀ k, BeyondKv.keyState P s' k = BeyondKv.keyState P s k) ↔ s.core.Tells P := by
  have hfiles : FilesOk P s.core.handles s.core.handles s₁.disk s.core.index := by
    rw [show s₁.disk = (s.core.footered P).disk from congrArg Core.disk hseal.core]
    exact h.sealed_files hsize
  have hF : filesOf s.core.handles = fun id ino => (id, ino) ∈ s₁.disk.listDataFiles := by
    rw [← hr.filesOf_eq hfiles, hr.sealed]
  have hlists : Lists P s₁.disk (fun id ino => (id, ino) ∈ s₁.disk.listDataFiles) none s.index := by
    rw [← hF, show s₁.disk = (s.core.footered P).disk from congrArg Core.disk hseal.core]
    exact h.lists_footered hl hsize
  have htold : Told P s₁.disk (fun id ino => (id, ino) ∈ s₁.disk.listDataFiles) s.index
      ↔ s.core.Tells P := by
    rw [← hF, show s₁.disk = (s.core.footered P).disk from congrArg Core.disk hseal.core]
    exact h.told_footered hsize
  have hsorted := listDataFiles_sorted s₁.disk
  have hnodup : ∀ f ∈ s₁.disk.listDataFiles,
      ((footerOn P (s₁.disk.inodes f.2)).map FooterEntry.key).Nodup :=
    fun f hf => (hfiles.sealed_of_mem hf).nodup
  rw [← htold]
  constructor
  · intro hsame
    constructor
    intro id ino hmem fe hfe
    obtain ⟨e', hget', httl⟩ := (foldFooters_told hsorted hnodup).live hmem fe hfe
    rw [← hr.index] at hget' httl
    have hk := hsame fe.key
    cases hget : s.index.get fe.key with
    | none => simp [BeyondKv.keyState, hget, hget'] at hk
    | some e =>
      have hsame' := (hlists.foldFooters hsorted hnodup hget (by simp)).1
      rw [← hr.index, hget'] at hsame'
      cases hsame'
      simp only [BeyondKv.keyState, hget, hget', Option.map_some, Option.some.injEq,
        Prod.mk.injEq] at hk
      exact ⟨e', rfl, fun hid => (httl hid).trans hk.2.2⟩
  · intro ht
    refine hr.keyState hseal h ?_
    rw [hr.index]
    exact (sameKeys_iff_told hsorted hnodup hlists).mpr ht

end restart

/-- From every state of a history with a file id to spare, a shutdown that meets no I/O error
succeeds and the directory opens again; then every key has the value, metadata, revision and
expiry it had, and there is no other key, exactly if every key that a sealed file's footer
lists was live, with the listed expiry if its record was in that file. -/
theorem clean_restart_iff (P : Prims) {config : LogConfig} {clock : Nat → UInt64} {s₀ s : NsState}
    (hopen : openLog P config clock (fun _ => none) Disk.empty = .ok s₀)
    (hreach : Reaches P Sound s₀ s) (hroom : Roomy s) (config' : LogConfig)
    (clock' : Nat → UInt64) :
    ∃ r s₁, (run (sealActiveForShutdown P).run s).result = some (r, s₁)
      ∧ (NoIoError r → r = .ok () ∧ ∃ s', openLog P config' clock' (fun _ => none) s₁.disk = .ok s'
        ∧ ((∀ k, keyState P s' k = keyState P s k)
          ↔ ∀ id f, s.sealed[id]? = some f → ∀ fe ∈ footerOn P (s.disk.inodes f.ino),
            ∃ e, s.index.get fe.key = some e
              ∧ (e.fileId = id → s.index.ttl fe.key = fe.expiresAtMs))) := by
  obtain ⟨hready, hl⟩ := Reaches.listed hopen (fun _ _ h => h) hreach
  have hwp : wpx Anywhere (sealActiveForShutdown P) (fun r s₁ => NoIoError r →
      r = .ok () ∧ (s.core.footered P).activeBytes.length ≤ maxFileSize
        ∧ Leaves s (s.core.footered P) s₁) s :=
    wpx_sealActiveForShutdown hready.ok (fun e s => noIoError_io)
      fun s₁ hsize hl _ => ⟨rfl, hsize, hl⟩
  obtain ⟨-, r, s₁, hrun, hQ⟩ := hwp
  refine ⟨r, s₁, hrun, fun hio => ?_⟩
  obtain ⟨rfl, hsize, hseal⟩ := hQ hio
  have hfiles : FilesOk P s.core.handles s.core.handles s₁.disk s.core.index := by
    rw [show s₁.disk = (s.core.footered P).disk from congrArg Core.disk hseal.core]
    exact hready.ok.sealed_files hsize
  obtain ⟨s', hopen', -, -, hr⟩ := openLog_sealed hfiles (handles_active s.core)
    (fun hf => hready.ok.handle_le hf) hroom.idLeft config' clock'
  refine ⟨rfl, s', hopen', (hr.keyState_iff hseal hready.ok hl hsize).trans ?_⟩
  constructor
  · intro htells id f hf fe hfe
    obtain rfl : f.fileId = id := hready.ok.files.dir.own (hready.ok.files.isHandle hf)
    have hF : filesOf s.core.sealed f.fileId f.ino := hf
    obtain ⟨e, hk, httl⟩ := htells.live hF fe hfe
    exact ⟨e, hk, fun hid => (httl hid.symm).symm⟩
  · intro h
    constructor
    intro id ino hF fe hfe
    obtain ⟨e, hk, httl⟩ := h id _ hF fe hfe
    exact ⟨e, hk, fun hid => (httl hid.symm).symm⟩

theorem clean_restart_iff_rotated :
    ∃ s₀ s, openLog realPrims smallConfig countingClock (fun _ => none) Disk.empty = .ok s₀
      ∧ Reaches realPrims Sound s₀ s ∧ Roomy s ∧ s.sealed.size = 1
      ∧ ∃ r s₁, (run (sealActiveForShutdown realPrims).run s).result = some (r, s₁)
        ∧ (NoIoError r → ∃ s',
          openLog realPrims smallConfig countingClock (fun _ => none) s₁.disk = .ok s') := by
  have hrun : ((smallLog soundly [.putFull [0x61] [0x31] [] none, .rotateActive,
      .putFull [0x61] [0x32] [] none]).map fun s => decide (s.sealed.size = 1 ∧ Roomy s))
      = some true := by decide +kernel
  obtain ⟨s, hs, hprops⟩ := Option.map_eq_some_iff.mp hrun
  obtain ⟨hsize, hroom⟩ := of_decide_eq_true hprops
  obtain ⟨s₀, hopen, hreach⟩ := reaches_smallLog sound_of_soundly hs
  obtain ⟨r, s₁, hres, hre⟩ :=
    clean_restart_iff realPrims hopen hreach hroom smallConfig countingClock
  refine ⟨s₀, s, hopen, hreach, hroom, hsize, r, s₁, hres, fun hio => ?_⟩
  obtain ⟨-, s', hopen', -⟩ := hre hio
  exact ⟨s', hopen'⟩

/-- The expiry of a key, if it is live. -/
def expiryOf (s : NsState) (k : Bytes) : Option (Option UInt64) :=
  (s.index.get k).map fun _ => s.index.ttl k

/-- A put, a rotation and a delete: after a clean restart the key is back. A put, a rotation
and an expiry: after a clean restart the expiry is gone. -/
theorem deleted_key_returns :
    (let put := Call.putFull [0x61] [0x31] [] none
     let restart := Call.restart smallConfig countingClock
     let at_ := fun calls => (smallLog soundly calls).map fun s => expiryOf s [0x61]
     (at_ [put, .rotateActive, .tombstone [0x61]],
      at_ [put, .rotateActive, .tombstone [0x61], restart],
      at_ [put, .rotateActive, .ttlUpdate [0x61] (some 99)],
      at_ [put, .rotateActive, .ttlUpdate [0x61] (some 99), restart]))
      = (some none, some (some none), some (some (some 99)), some (some none)) := by
  decide +kernel

end BeyondKv
