/-
# The records of the active file

The active file has no footer: an open replays its records over what the lower files
gave. `Core.Replays` says what that does to each key in a running log, whatever index the
replay starts from: a key whose record is in the active file comes out as the log has it, a
key whose record is sealed keeps what the lower files say, its expiry apart, and a key that
is gone stays gone if its tombstone is among the records.
-/
import BeyondKv.Listing

namespace BeyondKv

open Std (ExtTreeMap)
open Async

/-- The records `ls` of file `id`, replayed over an index. -/
def replayOver (P : Prims) (id : Nat) (ls : List Logged) (b : NsIndex) : NsIndex :=
  applyRecs P id 0 (ls.map Logged.toRec) b

/-- The records delete the key. -/
def Deletes (ls : List Logged) (k : Bytes) : Prop := ∃ l ∈ ls, l.op = .tombstone k

/-- The records change the expiry of the key. -/
def Updates (ls : List Logged) (k : Bytes) : Prop := ∃ l ∈ ls, ∃ x, l.op = .ttlUpdate k x

/-- What the records `ls` of the active file do to the keys of the log. -/
structure Core.Replays (P : Prims) (c : Core) (ls : List Logged) : Prop where
  bytes : c.activeBytes = logBytes P ls
  own : ∀ {k : Bytes} {e : IndexEntry}, c.index.get k = some e → e.fileId = c.active.fileId → ∀ b,
    (replayOver P c.active.fileId ls b).get k = some e
      ∧ (replayOver P c.active.fileId ls b).ttl k = c.index.ttl k
      ∧ ∀ h, c.index.valsep k = some h → (replayOver P c.active.fileId ls b).valsep k = some h
  old : ∀ {k : Bytes} {e : IndexEntry}, c.index.get k = some e → e.fileId ≠ c.active.fileId → ∀ b,
    (replayOver P c.active.fileId ls b).get k = b.get k
      ∧ (replayOver P c.active.fileId ls b).valsep k = b.valsep k
      ∧ (Updates ls k → (b.get k).isSome →
          (replayOver P c.active.fileId ls b).ttl k = c.index.ttl k)
      ∧ (¬ Updates ls k → (replayOver P c.active.fileId ls b).ttl k = b.ttl k)
  dead : ∀ {k : Bytes}, c.index.get k = none → ∀ b,
    (Deletes ls k → (replayOver P c.active.fileId ls b).get k = none)
      ∧ (¬ Deletes ls k → (replayOver P c.active.fileId ls b).get k = b.get k)

section one
variable (P : Prims) (id : Nat) (ls : List Logged) (b : NsIndex)

theorem replayOver_nil : replayOver P id [] b = b := rfl

theorem replayOver_concat (l : Logged) :
    replayOver P id (ls ++ [l]) b
      = applyRecord (replayOver P id ls b) id (logBytes P ls).length
      (l.toRec.header P) l.toRec.body := by
  unfold replayOver
  rw [List.map_append, applyRecs_append, Nat.zero_add]
  rfl

theorem deletes_concat {l : Logged} {k : Bytes} :
    Deletes (ls ++ [l]) k ↔ Deletes ls k ∨ l.op = .tombstone k := by
  simp only [Deletes, List.mem_append, List.mem_singleton, or_and_right, exists_or, exists_eq_left]

theorem updates_concat {l : Logged} {k : Bytes} :
    Updates (ls ++ [l]) k ↔ Updates ls k ∨ ∃ x, l.op = .ttlUpdate k x := by
  simp only [Updates, List.mem_append, List.mem_singleton, or_and_right, exists_or, exists_eq_left]

end one

section steps
variable {P : Prims} {c c' : Core} {ls : List Logged}

/-- Just opened: nothing is replayed. -/
theorem Core.Replays.nil (hbytes : c.activeBytes = [])
    (hold : ∀ {k e}, c.index.get k = some e → e.fileId ≠ c.active.fileId) : c.Replays P [] where
  bytes := hbytes
  own := fun hk hid => absurd hid (hold hk)
  old := fun _ _ _ => ⟨rfl, rfl, fun ⟨_, hl, _⟩ => absurd hl List.not_mem_nil, fun _ => rfl⟩
  dead := fun _ _ => ⟨fun ⟨_, hl, _⟩ => absurd hl List.not_mem_nil, fun _ => rfl⟩

/-- The keys a record is not about. -/
theorem at_applyRecord_of_ne (P : Prims) (idx : NsIndex) (id offset : Nat) (l : Logged) {k : Bytes}
    (hk : l.op.key ≠ k) : (applyRecord idx id offset (l.toRec.header P) l.toRec.body).at k
    = idx.at k := by
  cases hop : l.op with
  | put key v m x =>
    have hne : ¬ key = k := by rw [hop] at hk; exact hk
    rw [applyRecord_put P _ _ _ hop]
    cases v <;> simp [NsIndex.at, NsIndex.replayPut, hne]
  | tombstone key =>
    have hne : ¬ key = k := by rw [hop] at hk; exact hk
    rw [applyRecord_tombstone P _ _ _ hop]
    simp [NsIndex.at, hne]
  | ttlUpdate key x =>
    have hne : ¬ key = k := by rw [hop] at hk; exact hk
    rw [applyRecord_ttlUpdate P _ _ _ hop]
    split <;> simp [NsIndex.at, hne]

theorem replayOver_concat_of_ne (l : Logged) {k : Bytes} (hk : l.op.key ≠ k)
    (b : NsIndex) (id : Nat) :
    (replayOver P id (ls ++ [l]) b).at k = (replayOver P id ls b).at k := by
  rw [replayOver_concat, at_applyRecord_of_ne P _ _ _ l hk]

/-- One more record: what it does to its own key is to be shown, the others are as before. -/
theorem Core.Replays.concat (h : c.Replays P ls) {l : Logged} {index : NsIndex}
    (hother : ∀ k, l.op.key ≠ k → index.at k = c.index.at k)
    (hown : ∀ {e}, index.get l.op.key = some e → e.fileId = c.active.fileId → ∀ b,
      (replayOver P c.active.fileId (ls ++ [l]) b).get l.op.key = some e
        ∧ (replayOver P c.active.fileId (ls ++ [l]) b).ttl l.op.key = index.ttl l.op.key
        ∧ ∀ h, index.valsep l.op.key = some h →
          (replayOver P c.active.fileId (ls ++ [l]) b).valsep l.op.key = some h)
    (hold : ∀ {e}, index.get l.op.key = some e → e.fileId ≠ c.active.fileId → ∀ b,
      (replayOver P c.active.fileId (ls ++ [l]) b).get l.op.key = b.get l.op.key
        ∧ (replayOver P c.active.fileId (ls ++ [l]) b).valsep l.op.key = b.valsep l.op.key
        ∧ (Updates (ls ++ [l]) l.op.key → (b.get l.op.key).isSome →
            (replayOver P c.active.fileId (ls ++ [l]) b).ttl l.op.key = index.ttl l.op.key)
        ∧ (¬ Updates (ls ++ [l]) l.op.key →
            (replayOver P c.active.fileId (ls ++ [l]) b).ttl l.op.key = b.ttl l.op.key))
    (hdead : index.get l.op.key = none → ∀ b,
      (Deletes (ls ++ [l]) l.op.key →
        (replayOver P c.active.fileId (ls ++ [l]) b).get l.op.key = none)
        ∧ (¬ Deletes (ls ++ [l]) l.op.key →
            (replayOver P c.active.fileId (ls ++ [l]) b).get l.op.key = b.get l.op.key)) :
    ((c.appendActive (l.toRec.bytes P)).setIndex index).Replays P (ls ++ [l]) := by
  have hat : ∀ {k}, l.op.key ≠ k → ∀ b, (replayOver P c.active.fileId (ls ++ [l]) b).get k
        = (replayOver P c.active.fileId ls b).get k
      ∧ (replayOver P c.active.fileId (ls ++ [l]) b).ttl k
      = (replayOver P c.active.fileId ls b).ttl k
      ∧ (replayOver P c.active.fileId (ls ++ [l]) b).valsep k
        = (replayOver P c.active.fileId ls b).valsep k := by
    intro k hk b
    have hsame : (replayOver P c.active.fileId (ls ++ [l]) b).at k
        = (replayOver P c.active.fileId ls b).at k := replayOver_concat_of_ne l hk b c.active.fileId
    simp only [NsIndex.at, Prod.mk.injEq] at hsame
    exact hsame
  have hidx : ∀ {k}, l.op.key ≠ k → index.get k = c.index.get k ∧ index.ttl k = c.index.ttl k
      ∧ index.valsep k = c.index.valsep k := by
    intro k hk
    have := hother k hk
    simp only [NsIndex.at, Prod.mk.injEq] at this
    exact this
  have hdel : ∀ {k}, l.op.key ≠ k → (Deletes (ls ++ [l]) k ↔ Deletes ls k) := by
    intro k hk
    rw [deletes_concat]
    exact or_iff_left fun hop => hk (by rw [hop]; rfl)
  have hupd : ∀ {k}, l.op.key ≠ k → (Updates (ls ++ [l]) k ↔ Updates ls k) := by
    intro k hk
    rw [updates_concat]
    refine or_iff_left ?_
    rintro ⟨x, hop⟩
    exact hk (by rw [hop]; rfl)
  constructor
  · rw [logBytes_append, ← h.bytes]
    simp [Core.setIndex, Core.appendActive, Core.activeBytes, logBytes]
  · intro k e hk hid b
    by_cases hkey : l.op.key = k
    · subst hkey; exact hown hk hid b
    · obtain ⟨hg, ht, hv⟩ := hat hkey b
      obtain ⟨hg', ht', hv'⟩ := hidx hkey
      have hk' : c.index.get k = some e := hg'.symm.trans hk
      obtain ⟨h₁, h₂, h₃⟩ := h.own hk' hid b
      refine ⟨hg.trans h₁, ht.trans (h₂.trans ht'.symm), fun hash hh => hv.trans (h₃ hash ?_)⟩
      exact hv'.symm.trans hh
  · intro k e hk hid b
    by_cases hkey : l.op.key = k
    · subst hkey; exact hold hk hid b
    · obtain ⟨hg, ht, hv⟩ := hat hkey b
      obtain ⟨hg', ht', -⟩ := hidx hkey
      have hk' : c.index.get k = some e := hg'.symm.trans hk
      obtain ⟨h₁, h₂, h₃, h₄⟩ := h.old hk' hid b
      rw [hupd hkey]
      exact ⟨hg.trans h₁, hv.trans h₂, fun hu hb => ht.trans ((h₃ hu hb).trans ht'.symm),
        fun hu => ht.trans (h₄ hu)⟩
  · intro k hk b
    by_cases hkey : l.op.key = k
    · subst hkey; exact hdead hk b
    · obtain ⟨hg, -, -⟩ := hat hkey b
      have hk' : c.index.get k = none := (hidx hkey).1.symm.trans hk
      obtain ⟨h₁, h₂⟩ := h.dead hk' b
      rw [hdel hkey]
      exact ⟨fun hd => hg.trans (h₁ hd), fun hd => hg.trans (h₂ hd)⟩

theorem Core.Replays.put (h : c.Replays P ls) {l : Logged} {key m : Bytes} {v : Stored}
    {x : Option UInt64} (hop : l.op = .put key v m x) :
    (c.put P l key v x).Replays P (ls ++ [l]) := by
  have hkey : l.op.key = key := by rw [hop]; rfl
  have hrec : ∀ b, replayOver P c.active.fileId (ls ++ [l]) b
      = (replayOver P c.active.fileId ls b).replayPut key
          (c.nextEntry (l.toRec.bytes P).length l.tstampMs) x v := by
    intro b
    rw [replayOver_concat, applyRecord_put P _ _ _ hop, Core.nextEntry, h.bytes]
  refine h.concat (fun k hk => ?_) (fun {e} he _ b => ?_) (fun {e} he hid b => ?_) fun he b => ?_
  · rw [hkey] at hk
    simp [NsIndex.at, hk]
  · rw [hkey] at he ⊢
    simp only [NsIndex.get_setValsep, NsIndex.get_insert, if_pos] at he
    rw [hrec]
    refine ⟨by simp [he], by simp, fun hash hh => ?_⟩
    simp only [NsIndex.valsep_setValsep, if_pos] at hh
    cases v with
    | inline w => cases hh
    | blob hash' => cases hh; simp [NsIndex.replayPut]
  · rw [hkey] at he
    simp only [NsIndex.get_setValsep, NsIndex.get_insert, if_pos, Option.some.injEq] at he
    exact absurd (congrArg IndexEntry.fileId he).symm hid
  · rw [hkey] at he
    simp at he

theorem Core.Replays.tombstone (h : c.Replays P ls) {l : Logged} {key : Bytes}
    (hop : l.op = .tombstone key) :
    ((c.appendActive (l.toRec.bytes P)).setIndex (c.index.remove key).2).Replays P (ls ++ [l]) := by
  have hkey : l.op.key = key := by rw [hop]; rfl
  have hgone : (c.index.remove key).2.get l.op.key = none := by simp [hkey]
  refine h.concat (fun k hk => ?_) (fun {e} he => ?_) (fun {e} he => ?_) fun _ b =>
    ⟨fun _ => ?_, fun hd => ?_⟩
  · rw [hkey] at hk
    simp [NsIndex.at, hk]
  · rw [hgone] at he; cases he
  · rw [hgone] at he; cases he
  · rw [replayOver_concat, applyRecord_tombstone P _ _ _ hop, hkey]
    simp
  · exact absurd ((deletes_concat ls).mpr (.inr (hkey ▸ hop))) hd

theorem Core.Replays.ttl (h : c.Replays P ls) {l : Logged} {key : Bytes} {x : Option UInt64}
    (hop : l.op = .ttlUpdate key x) :
    ((c.appendActive (l.toRec.bytes P)).setIndex (c.index.setTtl key x)).Replays P (ls ++ [l]) := by
  have hkey : l.op.key = key := by rw [hop]; rfl
  have hrec : ∀ b, replayOver P c.active.fileId (ls ++ [l]) b
      = if ((replayOver P c.active.fileId ls b).get key).isSome
        then (replayOver P c.active.fileId ls b).setTtl key x
            else replayOver P c.active.fileId ls b := by
    intro b
    rw [replayOver_concat, applyRecord_ttlUpdate P _ _ _ hop]
  have hget : ∀ b, (replayOver P c.active.fileId (ls ++ [l]) b).get key
      = (replayOver P c.active.fileId ls b).get key := by
    intro b
    rw [hrec]
    split <;> simp
  have hsep : ∀ b, (replayOver P c.active.fileId (ls ++ [l]) b).valsep key
      = (replayOver P c.active.fileId ls b).valsep key := by
    intro b
    rw [hrec]
    split <;> simp
  have hset : ∀ {b}, ((replayOver P c.active.fileId ls b).get key).isSome →
      (replayOver P c.active.fileId (ls ++ [l]) b).ttl key = x := by
    intro b hb
    rw [hrec, if_pos hb]
    simp
  refine h.concat (fun k hk => ?_) (fun {e} he hid b => ?_) (fun {e} he hid b => ?_) fun he b => ?_
  · rw [hkey] at hk
    simp [NsIndex.at, hk]
  · rw [hkey] at he ⊢
    rw [NsIndex.get_setTtl] at he
    obtain ⟨h₁, -, h₃⟩ := h.own he hid b
    refine ⟨(hget b).trans h₁, ?_, fun hash hh => (hsep b).trans (h₃ hash ?_)⟩
    · rw [hset (Option.isSome_of_mem h₁)]; simp
    · rwa [NsIndex.valsep_setTtl] at hh
  · rw [hkey] at he ⊢
    rw [NsIndex.get_setTtl] at he
    obtain ⟨h₁, h₂, -⟩ := h.old he hid b
    refine ⟨(hget b).trans h₁, (hsep b).trans h₂, fun _ hb => ?_, fun hu => ?_⟩
    · rw [hset (by rw [h₁]; exact hb)]; simp
    · exact absurd ((updates_concat ls).mpr (.inr ⟨x, hop⟩)) hu
  · rw [hkey] at he ⊢
    rw [NsIndex.get_setTtl] at he
    obtain ⟨h₁, h₂⟩ := h.dead he b
    have hdel : Deletes (ls ++ [l]) key ↔ Deletes ls key := by
      rw [deletes_concat, hop]
      exact or_iff_left (by simp)
    rw [hdel]
    exact ⟨fun hd => (hget b).trans (h₁ hd), fun hd => (hget b).trans (h₂ hd)⟩

/-- A key that is not live loses what is left of its sidecar entries. -/
theorem Core.Replays.forget (h : c.Replays P ls) {key : Bytes} (hnone : c.index.get key = none) :
    (c.setIndex (c.index.remove key).2).Replays P ls := by
  have hget : ∀ k, (c.index.remove key).2.get k = c.index.get k := by
    intro k
    by_cases hk : key = k
    · subst hk; simp [hnone]
    · simp [hk]
  have hside : ∀ {k e}, c.index.get k = some e → (c.index.remove key).2.ttl k = c.index.ttl k
      ∧ (c.index.remove key).2.valsep k = c.index.valsep k := by
    intro k e hk
    have hne : ¬ key = k := by rintro rfl; rw [hnone] at hk; cases hk
    simp [hne]
  constructor
  · exact h.bytes
  · intro k e hk hid b
    have hk' : c.index.get k = some e := (hget k).symm.trans hk
    obtain ⟨h₁, h₂, h₃⟩ := h.own hk' hid b
    exact ⟨h₁, h₂.trans (hside hk').1.symm, fun hash hh => h₃ hash ((hside hk').2.symm.trans hh)⟩
  · intro k e hk hid b
    have hk' : c.index.get k = some e := (hget k).symm.trans hk
    obtain ⟨h₁, h₂, h₃, h₄⟩ := h.old hk' hid b
    exact ⟨h₁, h₂, fun hu hb => (h₃ hu hb).trans (hside hk').1.symm, h₄⟩
  · intro k hk b
    exact h.dead ((hget k).symm.trans hk) b

theorem LogOk.entry_le (h : LogOk P c) {k : Bytes} {e : IndexEntry} (hk : c.index.get k = some e) :
    e.fileId ≤ c.active.fileId := by
  obtain ⟨f, hf, -⟩ := h.files.resolves hk
  rcases handles_cases c hf with ⟨hid, -⟩ | ⟨-, hs⟩
  · exact Nat.le_of_eq hid
  · exact Nat.le_of_lt (h.below hs)

theorem activeBytes_activated {id : Nat} (hnew : c.disk.data[id]? = none) :
    (c.activated id).activeBytes = [] := by
  change (c.disk.openCreateData id).2.inodes c.disk.nextIno = []
  rw [openCreateData_new hnew]
  simp [Disk.link, Disk.alloc]

theorem Change.replays {l : Label} (hc : Change P c l c') (hok : LogOk P c) (hl : l ≠ .footer)
    (h : c.Replays P ls) : ∃ ls', c'.Replays P ls' := by
  cases hc with
  | put hop hsize => exact ⟨_, h.put hop⟩
  | forget hnone => exact ⟨_, h.forget hnone⟩
  | tombstone hop hsize => exact ⟨_, h.tombstone hop⟩
  | ttl hop hsize => exact ⟨_, h.ttl hop⟩
  | blobs hs =>
    have hbytes : (c.setDisk _).activeBytes = c.activeBytes :=
      hs.inodes (hok.files.dir.logs_of_handle (handles_active c))
    exact ⟨ls, ⟨hbytes.trans h.bytes, h.own, h.old, h.dead⟩⟩
  | footer => exact absurd rfl hl
  | rotate hsize hid =>
    have hnone : (c.footered P).sealActive.disk.data[c.active.fileId + 1]? = none := by
      have hdata := hok.files.dir.map (c.active.fileId + 1)
      rw [hok.unused_above (Nat.lt_succ_self _)] at hdata
      exact hdata
    refine ⟨[], .nil (activeBytes_activated hnone) fun {k e} hk => ?_⟩
    exact Nat.ne_of_lt (Nat.lt_succ_of_le (hok.entry_le hk))

theorem Changes.replays {lbls : List Label} (hc : Changes P c lbls c')
    (hl : ∀ l ∈ lbls, l ≠ .footer) (hok : LogOk P c)
    (h : ∃ ls, c.Replays P ls) : ∃ ls, c'.Replays P ls := by
  induction hc with
  | nil => exact h
  | @cons c c₁ c' l lbls hstep _ ih =>
    obtain ⟨ls, hls⟩ := h
    exact ih (fun x hx => hl x (List.mem_cons_of_mem _ hx)) (hstep.logOk hok)
      (hstep.replays hok (hl l (List.mem_cons_self ..)) hls)

/-- No call stops at the footer. -/
theorem Call.May.ne_footer {call : Call} {l : Label} (h : call.May l) : l ≠ .footer := by
  rintro rfl
  cases call <;> simp [Call.May] at h

end steps

section histories
variable {P : Prims} {s s' : NsState}

theorem Restarted.entry_lt {H : ExtTreeMap Nat LogFile} {d : Disk} {top : Nat} {idx : NsIndex}
    (hr : Restarted P H d top s') (h : FilesOk P H H d idx)
    (hmax : ∀ {id : Nat} {f : LogFile}, H[id]? = some f → id ≤ top) {k : Bytes} {e : IndexEntry}
    (hk : s'.index.get k = some e) : e.fileId < s'.active.fileId := by
  rw [hr.index] at hk
  obtain ⟨f, hf, -⟩ :=
    foldFooters_get (listDataFiles_sorted d) (fun f hf => (h.sealed_of_mem hf).nodup) hk
  rw [mem_listDataFiles, h.dir.map, Option.map_eq_some_iff] at hf
  obtain ⟨g, hg, -⟩ := hf
  rw [hr.active]
  exact Nat.lt_succ_of_le (hmax hg)

theorem Outcome.replays {call : Call} {r : Except EngineError (List UInt64)}
    (ho : Outcome P s call r s') (h : Ready P s) (hls : ∃ ls, s.core.Replays P ls) :
    ∃ ls, s'.core.Replays P ls := by
  cases ho with
  | changes _ hmay _ hc hs =>
    exact hs.core ▸ hc.replays (fun l hl => (hmay l hl).ne_footer) h.ok hls
  | @reclaimed r s₁ s' hr =>
    refine ⟨[], hr.core ▸ .nil (activeBytes_activated hr.reclaiming.newId_free) fun {k e} hk => ?_⟩
    obtain ⟨f, hf, -⟩ := hr.reclaiming.merging.files.resolves hk
    exact Nat.ne_of_lt (Nat.lt_succ_of_le (sealed_le_maxFileId hf))
  | flushed hf =>
    refine ⟨[], .nil hf.bytes fun {k e} hk => ?_⟩
    have hidx : s'.core.index = .empty := hf.index
    rw [hidx, NsIndex.get_empty] at hk
    cases hk
  | restarted hseal hsize hr =>
    refine ⟨[], .nil hr.bytes fun {k e} hk => ?_⟩
    have hfiles := h.ok.sealed_files hsize
    rw [← show _ = (s.core.footered P).disk from congrArg Core.disk hseal.core] at hfiles
    exact Nat.ne_of_lt (hr.entry_lt hfiles (fun hf => h.ok.handle_le hf) hk)

end histories

end BeyondKv
