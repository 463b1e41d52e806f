/-
# Recovery from footers

After a clean shutdown every data file ends in a footer, and opening folds the
footers in id order: the last file that lists a key decides it. `Lists` is what
the footers say about the index of every running log: a live key is listed by the
file its record is in, and no file with a higher id mentions it. The fold then
rebuilds the index exactly when the footers also name no other key and have every
expiry right (`Told`, `sameKeys_iff_told`).
-/
import BeyondKv.Reclaim

namespace BeyondKv

open List

open Std (ExtTreeMap)

/-! ## One footer -/

/-- What a footer entry puts into the index of file `fileId`. -/
def FooterEntry.toEntry (fe : FooterEntry) (fileId : Nat) : IndexEntry :=
  IndexEntry.new fileId fe.recordOffset fe.recordSize fe.tstampMs

/-- What an index knows about a key. -/
def NsIndex.at (idx : NsIndex) (k : Bytes) :
    Option IndexEntry × Option UInt64 × Option ContentHash :=
  (idx.get k, idx.ttl k, idx.valsep k)

section footer
variable (fileId : Nat)

theorem at_applyFooterEntry (idx : NsIndex) (fe : FooterEntry) (k : Bytes) :
    (applyFooterEntry fileId idx fe).at k
      = if fe.key = k then (some (fe.toEntry fileId), fe.expiresAtMs, fe.valueHash)
        else idx.at k := by
  by_cases hk : fe.key = k <;>
    simp [NsIndex.at, applyFooterEntry, FooterEntry.toEntry, hk]

theorem at_applyFooterEntries_of_not_mem {entries : List FooterEntry} {k : Bytes}
    (hk : ∀ fe ∈ entries, fe.key ≠ k) (idx : NsIndex) :
    (applyFooterEntries idx fileId entries).at k = idx.at k := by
  induction entries generalizing idx with
  | nil => rfl
  | cons fe rest ih =>
    have hrest : ∀ fe ∈ rest, fe.key ≠ k := fun x hx => hk x (mem_cons_of_mem _ hx)
    have hstep := ih hrest (applyFooterEntry fileId idx fe)
    rw [at_applyFooterEntry, if_neg (hk fe (mem_cons_self ..))] at hstep
    exact hstep

theorem at_applyFooterEntries_of_mem {entries : List FooterEntry} {fe : FooterEntry}
    (hnodup : (entries.map FooterEntry.key).Nodup) (hfe : fe ∈ entries) (idx : NsIndex) :
    (applyFooterEntries idx fileId entries).at fe.key
      = (some (fe.toEntry fileId), fe.expiresAtMs, fe.valueHash) := by
  induction entries generalizing idx with
  | nil => cases hfe
  | cons x rest ih =>
    rw [map_cons, nodup_cons] at hnodup
    rcases mem_cons.mp hfe with rfl | hrest
    · have hout : ∀ y ∈ rest, y.key ≠ fe.key := fun y hy he =>
        hnodup.1 (he ▸ mem_map_of_mem hy)
      have hstep := at_applyFooterEntries_of_not_mem fileId hout (applyFooterEntry fileId idx fe)
      rw [at_applyFooterEntry, if_pos rfl] at hstep
      exact hstep
    · exact ih hnodup.2 hrest _

end footer

/-! ## All footers -/

/-- The entries of the footer a file ends in. -/
def footerOn (P : Prims) (file : Bytes) : List FooterEntry :=
  match readFooter P file with
  | .ok (some entries) => entries
  | _ => []

/-- A sealed file: it ends in a footer that names no key twice. -/
structure Sealed (P : Prims) (file : Bytes) : Prop where
  read : readFooter P file = .ok (some (footerOn P file))
  nodup : ((footerOn P file).map FooterEntry.key).Nodup

theorem footerOn_of_read {P : Prims} {file : Bytes} {es : List FooterEntry}
    (h : readFooter P file = .ok (some es)) : footerOn P file = es := by
  simp [footerOn, h]

/-- The index the footers of `fs` rebuild on top of `idx`. -/
def foldFooters (P : Prims) (d : Disk) (fs : List (Nat × Nat)) (idx : NsIndex) : NsIndex :=
  fs.foldl (fun i f => applyFooterEntries i f.1 (footerOn P (d.inodes f.2))) idx

section footers
variable {P : Prims} {d : Disk}

theorem loadSealed_nil (idx : NsIndex) (id : Nat) : loadSealed P idx id [] = .ok idx := rfl

theorem footerOn_nil : footerOn P [] = [] := rfl

/-- Every lower file ends in a footer or is empty. -/
theorem loadAllSealed_eq_foldFooters {fs : List (Nat × Nat)}
    (h : ∀ f ∈ fs, Sealed P (d.inodes f.2) ∨ d.inodes f.2 = []) (idx : NsIndex) :
    loadAllSealed P d fs idx = .ok (foldFooters P d fs idx) := by
  induction fs generalizing idx with
  | nil => rfl
  | cons f rest ih =>
    obtain ⟨id, ino⟩ := f
    have hload : loadSealed P idx id (d.inodes ino)
        = .ok (applyFooterEntries idx id (footerOn P (d.inodes ino))) := by
      rcases h (id, ino) (mem_cons_self ..) with hs | hnil
      · simp only [loadSealed, hs.read, bind, Except.bind, pure, Except.pure]
      · have hnil' : d.inodes ino = [] := hnil
        rw [hnil', loadSealed_nil, footerOn_nil]
        rfl
    rw [loadAllSealed, hload]
    exact ih (fun x hx => h x (mem_cons_of_mem _ hx)) _

theorem at_foldFooters_of_not_mem {fs : List (Nat × Nat)} {k : Bytes}
    (hk : ∀ f ∈ fs, ∀ fe ∈ footerOn P (d.inodes f.2), fe.key ≠ k) (idx : NsIndex) :
    (foldFooters P d fs idx).at k = idx.at k := by
  induction fs generalizing idx with
  | nil => rfl
  | cons f rest ih =>
    have hrest := ih (fun x hx => hk x (mem_cons_of_mem _ hx))
      (applyFooterEntries idx f.1 (footerOn P (d.inodes f.2)))
    rw [at_applyFooterEntries_of_not_mem f.1 (hk f (mem_cons_self ..))] at hrest
    exact hrest

/-- The last file that lists a key decides it. -/
theorem at_foldFooters_of_last (before : List (Nat × Nat)) {after : List (Nat × Nat)}
    {f : Nat × Nat} {fe : FooterEntry}
    (hs : ((footerOn P (d.inodes f.2)).map FooterEntry.key).Nodup)
    (hfe : fe ∈ footerOn P (d.inodes f.2))
    (hafter : ∀ g ∈ after, ∀ x ∈ footerOn P (d.inodes g.2), x.key ≠ fe.key) (idx : NsIndex) :
    (foldFooters P d (before ++ f :: after) idx).at fe.key
      = (some (fe.toEntry f.1), fe.expiresAtMs, fe.valueHash) := by
  unfold foldFooters
  rw [foldl_append, foldl_cons]
  exact (at_foldFooters_of_not_mem hafter _).trans
    (at_applyFooterEntries_of_mem f.1 hs hfe _)

end footers

/-! ## Footers that cover an index -/

/-- The footer entry that a live key of an index has in its file. -/
def footerEntryOf (idx : NsIndex) (k : Bytes) (e : IndexEntry) : FooterEntry :=
  { key := k
    recordOffset := e.recordOffset
    recordSize := e.recordSize
    expiresAtMs := idx.ttl k
    tstampMs := e.tstampMs
    valueHash := idx.valsep k }

theorem footerEntryOf_toEntry (idx : NsIndex) (k : Bytes) (e : IndexEntry) :
    (footerEntryOf idx k e).toEntry e.fileId = e := rfl

/-- The files `F`, by id and inode, list the live keys of an index: each is listed by its
own file, unless that is the unsealed file `a`, and by no later one. Its expiry there may be
out of date, and other keys may be listed as well. -/
structure Lists (P : Prims) (d : Disk) (F : Nat → Nat → Prop) (a : Option Nat) (idx : NsIndex) :
    Prop where
  below : ∀ {id ino : Nat}, F id ino → ∀ fe ∈ footerOn P (d.inodes ino), ∀ {e : IndexEntry},
    idx.get fe.key = some e → id < e.fileId
      ∨ (id = e.fileId ∧ fe = { footerEntryOf idx fe.key e with expiresAtMs := fe.expiresAtMs })
  lists : ∀ {k : Bytes} {e : IndexEntry}, idx.get k = some e → some e.fileId ≠ a →
    ∃ ino, F e.fileId ino ∧ ∃ fe ∈ footerOn P (d.inodes ino), fe.key = k

/-- The footers of `F` name live keys only, each with its expiry in its own file. -/
structure Told (P : Prims) (d : Disk) (F : Nat → Nat → Prop) (idx : NsIndex) : Prop where
  live : ∀ {id ino : Nat}, F id ino → ∀ fe ∈ footerOn P (d.inodes ino),
    ∃ e, idx.get fe.key = some e ∧ (id = e.fileId → fe.expiresAtMs = idx.ttl fe.key)

/-- Two indexes that say the same about every key: data of a live key, absence of others. -/
def SameKeys (idx idx' : NsIndex) : Prop :=
  ∀ k, idx'.get k = idx.get k ∧ ((idx.get k).isSome → idx'.at k = idx.at k)

section fold
variable {P : Prims} {d : Disk} {fs : List (Nat × Nat)} {idx : NsIndex}

/-- Some file is the last one that lists a key. -/
theorem exists_last_listing {f : Nat × Nat} {k : Bytes} (hf : f ∈ fs)
    (hk : ∃ fe ∈ footerOn P (d.inodes f.2), fe.key = k) :
    ∃ before g after, fs = before ++ g :: after ∧ (f ∈ before ∨ f = g)
      ∧ (∃ fe ∈ footerOn P (d.inodes g.2), fe.key = k)
      ∧ ∀ g' ∈ after, ∀ x ∈ footerOn P (d.inodes g'.2), x.key ≠ k := by
  induction fs generalizing f with
  | nil => cases hf
  | cons x rest ih =>
    by_cases hrest : ∃ g ∈ rest, ∃ fe ∈ footerOn P (d.inodes g.2), fe.key = k
    · obtain ⟨g, hg, hgk⟩ := hrest
      rcases mem_cons.mp hf with rfl | hf
      · obtain ⟨before, g', after, rfl, -, hlist, hafter⟩ := ih hg hgk
        exact ⟨f :: before, g', after, rfl, .inl (mem_cons_self ..), hlist, hafter⟩
      · obtain ⟨before, g', after, rfl, hmem, hlist, hafter⟩ := ih hf hk
        exact ⟨x :: before, g', after, rfl, hmem.imp_left (mem_cons_of_mem _), hlist, hafter⟩
    · rcases mem_cons.mp hf with rfl | hf
      · exact ⟨[], f, rest, rfl, .inr rfl, hk, fun g hg fe hfe hkey => hrest ⟨g, hg, fe, hfe, hkey⟩⟩
      · exact absurd ⟨f, hf, hk⟩ hrest

/-- An entry of the folded index comes from a footer. -/
theorem foldFooters_entry {k : Bytes} {e : IndexEntry}
    (h : (foldFooters P d fs .empty).get k = some e) :
    ∃ f ∈ fs, ∃ fe ∈ footerOn P (d.inodes f.2), fe.key = k := by
  by_cases hk : ∃ f ∈ fs, ∃ fe ∈ footerOn P (d.inodes f.2), fe.key = k
  · exact hk
  · have hout : ∀ f ∈ fs, ∀ fe ∈ footerOn P (d.inodes f.2), fe.key ≠ k :=
      fun f hf fe hfe hkey => hk ⟨f, hf, fe, hfe, hkey⟩
    have hnone := congrArg Prod.fst (at_foldFooters_of_not_mem hout NsIndex.empty)
    have : some e = none := h.symm.trans (hnone.trans (NsIndex.get_empty k))
    cases this

variable (hsorted : fs.Pairwise fun f g => f.1 < g.1)
  (hnodup : ∀ f ∈ fs, ((footerOn P (d.inodes f.2)).map FooterEntry.key).Nodup)
include hsorted hnodup

/-- A listed key is in the folded index, from its last listing. -/
theorem foldFooters_listed {f : Nat × Nat} {k : Bytes} (hf : f ∈ fs)
    (hk : ∃ fe ∈ footerOn P (d.inodes f.2), fe.key = k) :
    ∃ g ∈ fs, ∃ fe ∈ footerOn P (d.inodes g.2), fe.key = k ∧ f.1 ≤ g.1
      ∧ (foldFooters P d fs .empty).at k
      = (some (fe.toEntry g.1), fe.expiresAtMs, fe.valueHash) := by
  obtain ⟨before, g, after, rfl, hmem, ⟨fe, hfe, rfl⟩, hafter⟩ := exists_last_listing hf hk
  have hg : g ∈ before ++ g :: after := by simp
  refine ⟨g, hg, fe, hfe, rfl, ?_, at_foldFooters_of_last before (hnodup g hg) hfe hafter .empty⟩
  rcases hmem with hmem | rfl
  · exact Nat.le_of_lt ((pairwise_append.mp hsorted).2.2 f hmem g (mem_cons_self ..))
  · exact Nat.le_refl _

/-- The last listing of a key is the footer entry of its index entry. -/
theorem foldFooters_get {k : Bytes} {e : IndexEntry}
    (h : (foldFooters P d fs .empty).get k = some e) :
    ∃ ino, (e.fileId, ino) ∈ fs
      ∧ footerEntryOf (foldFooters P d fs .empty) k e ∈ footerOn P (d.inodes ino) := by
  obtain ⟨f, hf, hk⟩ := foldFooters_entry h
  obtain ⟨g, hg, fe, hfe, rfl, -, hat⟩ := foldFooters_listed hsorted hnodup hf hk
  have he : some e = some (fe.toEntry g.1) := h.symm.trans (congrArg Prod.fst hat)
  have ht : (foldFooters P d fs .empty).ttl fe.key = fe.expiresAtMs := congrArg (fun t => t.2.1) hat
  have hv : (foldFooters P d fs .empty).valsep fe.key = fe.valueHash :=
    congrArg (fun t => t.2.2) hat
  cases he
  refine ⟨g.2, hg, ?_⟩
  rw [footerEntryOf, ht, hv]
  exact hfe

/-- What a footer says about a key is in the folded index, unless a later file lists the key. -/
theorem foldFooters_below {id ino : Nat} (hF : (id, ino) ∈ fs) {fe : FooterEntry}
    (hfe : fe ∈ footerOn P (d.inodes ino)) :
    ∃ e, (foldFooters P d fs .empty).get fe.key = some e ∧ (id < e.fileId
      ∨ (id = e.fileId ∧ fe = footerEntryOf (foldFooters P d fs .empty) fe.key e)) := by
  obtain ⟨g, hg, fe', hfe', hkey, hle, hat⟩ := foldFooters_listed hsorted hnodup hF ⟨fe, hfe, rfl⟩
  refine ⟨_, congrArg Prod.fst hat, (Nat.lt_or_eq_of_le hle).imp_right fun heq => ⟨heq, ?_⟩⟩
  -- one file of an id, and one entry of a key in its footer
  have hids : (fs.map Prod.fst).Nodup := pairwise_map.mpr (hsorted.imp fun h => Nat.ne_of_lt h)
  have hg' : g = (id, ino) := inj_on_of_nodup_map hids hg hF heq.symm
  subst hg'
  have hsame : fe' = fe := inj_on_of_nodup_map (hnodup _ hg) hfe' hfe hkey
  subst hsame
  have ht : (foldFooters P d fs .empty).ttl fe'.key = fe'.expiresAtMs :=
    congrArg (fun t => t.2.1) hat
  have hv : (foldFooters P d fs .empty).valsep fe'.key = fe'.valueHash :=
    congrArg (fun t => t.2.2) hat
  rw [footerEntryOf, ht, hv]
  rfl

/-- The folded index is listed by the files it is folded from. -/
theorem foldFooters_lists :
    Lists P d (fun id ino => (id, ino) ∈ fs) none (foldFooters P d fs .empty) := by
  constructor
  · intro id ino hF fe hfe e hget
    obtain ⟨e', hget', hor⟩ := foldFooters_below hsorted hnodup hF hfe
    have heq : some e' = some e := hget'.symm.trans hget
    cases heq
    refine hor.imp_right fun h => ⟨h.1, ?_⟩
    exact h.2.trans (by rw [footerEntryOf, congrArg FooterEntry.expiresAtMs h.2, footerEntryOf])
  · intro k e hget _
    obtain ⟨ino, hF, hmem⟩ := foldFooters_get hsorted hnodup hget
    exact ⟨ino, hF, _, hmem, rfl⟩

theorem foldFooters_told : Told P d (fun id ino => (id, ino) ∈ fs) (foldFooters P d fs .empty) := by
  constructor
  intro id ino hF fe hfe
  obtain ⟨e, hget, hor⟩ := foldFooters_below hsorted hnodup hF hfe
  refine ⟨e, hget, fun hid => ?_⟩
  rcases hor with hlt | ⟨-, hfe'⟩
  · exact absurd hid (Nat.ne_of_lt hlt)
  · exact congrArg FooterEntry.expiresAtMs hfe'

/-- A live key of a listed index is where it was in the folded one. -/
theorem Lists.foldFooters {a : Option Nat} (h : Lists P d (fun id ino => (id, ino) ∈ fs) a idx)
    {k : Bytes} {e : IndexEntry} (hk : idx.get k = some e) (ha : some e.fileId ≠ a) :
    (foldFooters P d fs .empty).get k = some e
      ∧ (foldFooters P d fs .empty).valsep k = idx.valsep k := by
  obtain ⟨ino, hF, fe, hfe, rfl⟩ := h.lists hk ha
  obtain ⟨g, hg, fe', hfe', hkey, hle, hat⟩ := foldFooters_listed hsorted hnodup hF ⟨fe, hfe, rfl⟩
  have hgF : (g.1, g.2) ∈ fs := hg
  rcases h.below hgF fe' hfe' (hkey ▸ hk) with hlt | ⟨heq, hfe''⟩
  · exact absurd hle (Nat.not_le.mpr hlt)
  · rw [hkey] at hfe''
    have hentry : fe'.toEntry g.1 = e := by rw [hfe'', heq]; rfl
    have hhash : fe'.valueHash = idx.valsep fe.key := by rw [hfe'']; rfl
    exact ⟨(congrArg Prod.fst hat).trans (congrArg some hentry),
      (congrArg (fun t => t.2.2) hat).trans hhash⟩

/-- The fold rebuilds a listed index exactly when the footers tell no more than it holds. -/
theorem sameKeys_iff_told (h : Lists P d (fun id ino => (id, ino) ∈ fs) none idx) :
    SameKeys idx (BeyondKv.foldFooters P d fs .empty)
        ↔ Told P d (fun id ino => (id, ino) ∈ fs) idx := by
  constructor
  · refine fun hsame => ⟨fun {id ino} hF fe hfe => ?_⟩
    obtain ⟨e, hget, httl⟩ := (foldFooters_told hsorted hnodup).live hF fe hfe
    have hget' : idx.get fe.key = some e := (hsame fe.key).1.symm.trans hget
    have hat := (hsame fe.key).2 (Option.isSome_of_mem hget')
    exact ⟨e, hget', fun hid => (httl hid).trans (congrArg (fun t => t.2.1) hat)⟩
  · intro htold k
    cases hk : idx.get k with
    | some e =>
      obtain ⟨hget, hv⟩ := h.foldFooters hsorted hnodup hk (by simp)
      obtain ⟨ino, hF, hmem⟩ := foldFooters_get hsorted hnodup hget
      obtain ⟨e', he', httl⟩ := htold.live hF _ hmem
      have heq : some e' = some e := he'.symm.trans hk
      cases heq
      refine ⟨hget, fun _ => ?_⟩
      simp only [NsIndex.at, hget, hk, hv]
      exact congrArg (fun t => (some e, t, idx.valsep k)) (httl rfl)
    | none =>
      cases hget : (BeyondKv.foldFooters P d fs .empty).get k with
      | none => exact ⟨rfl, fun h => by cases h⟩
      | some e =>
        obtain ⟨f, hf, fe, hfe, rfl⟩ := foldFooters_entry hget
        have hF : (f.1, f.2) ∈ fs := hf
        obtain ⟨e', he', -⟩ := htold.live hF fe hfe
        rw [hk] at he'
        cases he'

end fold

end BeyondKv
