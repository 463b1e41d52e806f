/-
# The snapshot keeps up with the store

The highest revision a snapshot has seen says little about what it has missed. A load reads one page
after the other, and each definition by itself; if it comes across one that has been written
meanwhile, the watch is resumed after that, and whatever happened to other flags before is not told.
A load that breaks off leaves such a revision too, and so does a watch without a revision if it
breaks off: it begins with all there is, in the order of the keys. And a load that is under way
when the watch is resumed puts back what the watch has replaced since.

`snapshot_converges` is about the runs without this. There the loads under way are right about all
that has not changed since they began (`Progress.Right`), the revision stays below what has, and
what a stream has yet to tell makes up for the difference to the store (`Stream.MakesUp`).
-/
import BeyondKv.Sdk.Snapshot

namespace BeyondKv.Sdk.Snapshots

open Async List Multiset

/-! ## The invariant -/

/-- How far a load is. -/
structure Progress where
  /-- The flags whose turn has been. -/
  passed : Set String
  /-- Those it has listed and not read. -/
  names : List String
  /-- What it has read and not applied. -/
  values : List (String × Option Bytes)
  revisions : List ℕ
  seen : List String

/-- A load is right about everything that has not changed since the revision `r`. -/
structure Progress.Right (J : JsonText) (r : ℕ) (w : World) (p : Progress) : Prop where
  listed : ∀ name ∈ p.passed, w.store.Settled r name → w.store.raws name ≠ none →
    name ∈ p.names ∨ (∃ value, (name, value) ∈ p.values) ∨ name ∈ p.seen
  values : ∀ name value, (name, value) ∈ p.values → w.store.Settled r name →
    value = w.store.raws name
  valid : ∀ name raw, (name, some raw) ∈ p.values → Valid J raw
  revisions : ∀ r' ∈ p.revisions, 0 < r' ∧ r' ≤ r
  seen : ∀ name ∈ p.seen, w.store.Settled r name →
    w.store.raws name ≠ none ∧ w.snap.raws name = w.store.raws name

/-- What the snapshot itself is doing. -/
inductive Phase where
  | loading
  | watching
  | pausing

def Phase.Fits (w : World) : Phase → Prop
  | .loading => w.stream.isClosed = true ∧ w.snap.pollTimer = false
  | .watching => True
  | .pausing => w.stream.isClosed = true

/-- The snapshot has what has not changed since its revision. -/
def World.CaughtUp (w : World) : Prop :=
  ∀ name, w.store.Settled w.snap.lastRevision name → w.snap.raws name = w.store.raws name

/-- Once everything has been told the snapshot has what the store has. Only a load that has begun
to apply what it reads may interfere with this, and mends it in the end. -/
def Stream.MakesUp (w : World) (L : Multiset Progress) : Stream → Prop
  | .closed _ => (∃ p ∈ L, p.seen ≠ []) ∨ w.CaughtUp
  | .opening since => since = w.snap.lastRevision ∧ w.CaughtUp
  | .live pending =>
    (∀ m, .changed m ∈ pending → m ∈ w.store.log) ∧ replay w.snap.raws pending = w.store.raws

theorem Stream.makesUp_closed {w : World} {L : Multiset Progress} {stream : Stream}
    (h : stream.isClosed = true) :
    stream.MakesUp w L ↔ (∃ p ∈ L, p.seen ≠ []) ∨ w.CaughtUp := by
  cases stream with
  | closed _ => rfl
  | opening _ | live _ => cases h

structure Synced (J : JsonText) (W : Multiset Phase) (L : Multiset Progress) (g : Flight)
    (w : World) : Prop where
  loads : g.loads = L.card
  dated : w.snap.lastRevision ≤ w.store.revision
  fresh : w.snap.lastRevision = 0 → ∀ name, w.snap.raws name = none
  sound : w.snap.Sound J
  valid : ∀ m ∈ w.store.log, m.Valid J
  timer : w.snap.pollTimer = true → w.stream.isClosed = true
  one : W.card ≤ 1
  phase : ∀ a ∈ W, a.Fits w
  flight : ∀ p ∈ L, w.stream.isClosed = true ∧ w.snap.lastRevision ≤ g.horizon
    ∧ g.horizon ≤ w.store.revision
  right : ∀ p ∈ L, p.Right J g.horizon w
  told : w.stream.MakesUp w L

section synced
variable {J : JsonText} {W : Multiset Phase} {L : Multiset Progress} {g : Flight} {w w' : World}
  {p p' : Progress}
  {r : ℕ} {name : String} {seen : List String} {passed : Set String}

theorem Progress.Right.mono (h : p.Right J r w) (hstore : ∀ name, w'.store.Settled r name →
      w.store.Settled r name ∧ w'.store.raws name = w.store.raws name)
    (hsnap : ∀ name, w'.store.Settled r name → w.store.raws name ≠ none →
      w.snap.raws name = w.store.raws name →
      w'.snap.raws name = w.store.raws name) : p.Right J r w' where
  listed name hname hsettled hsome :=
    h.listed name hname (hstore name hsettled).1 ((hstore name hsettled).2 ▸ hsome)
  values name value hmem hsettled :=
    (h.values name value hmem (hstore name hsettled).1).trans (hstore name hsettled).2.symm
  valid := h.valid
  revisions := h.revisions
  seen name hname hsettled := by
    obtain ⟨hold, heq⟩ := hstore name hsettled
    obtain ⟨hsome, hcaught⟩ := h.seen name hname hold
    rw [heq]
    exact ⟨hsome, hsnap name hsettled hsome hcaught⟩

/-- A change of the snapshot alone. -/
theorem Synced.snap (h : Synced J W L g w) {L' : Multiset Progress} {g' : Flight} {s' : Snapshot}
    {raws : String → Option Bytes} {revision : ℕ} (hbecomes : w.snap.Becomes J s' raws revision)
    (hloads : g'.loads = L'.card) (hdated : revision ≤ w.store.revision)
    (hfresh : revision = 0 → ∀ name, raws name = none)
    (hflight : ∀ p ∈ L', w.stream.isClosed = true ∧ revision ≤ g'.horizon
      ∧ g'.horizon ≤ w.store.revision)
    (hright : ∀ p ∈ L', p.Right J g'.horizon { w with snap := s' })
    (htold : w.stream.MakesUp { w with snap := s' } L') :
    Synced J W L' g' { w with snap := s' } where
  loads := hloads
  dated := hbecomes.revision.trans_le hdated
  fresh hzero name :=
    (congrFun hbecomes.raws name).trans (hfresh (hbecomes.revision.symm.trans hzero) name)
  sound := hbecomes.sound h.sound
  valid := h.valid
  timer htimer := h.timer (hbecomes.pollTimer.symm.trans htimer)
  one := h.one
  phase a ha := by
    have hfits := h.phase a ha
    cases a with
    | loading => exact ⟨hfits.1, hbecomes.pollTimer.trans hfits.2⟩
    | watching => trivial
    | pausing => exact hfits
  flight p hp := by
    obtain ⟨hclosed, hle, hhorizon⟩ := hflight p hp
    exact ⟨hclosed, hbecomes.revision.trans_le hle, hhorizon⟩
  right := hright
  told := htold

/-- A load gets on, and nothing else happens. -/
theorem Synced.progress (h : Synced J W (p ::ₘ L) g w) (hright : p'.Right J g.horizon w)
    (hseen : p'.seen = p.seen) : Synced J W (p' ::ₘ L) g w where
  loads := by rw [h.loads, card_cons, card_cons]
  dated := h.dated
  fresh := h.fresh
  sound := h.sound
  valid := h.valid
  timer := h.timer
  one := h.one
  phase := h.phase
  flight _ _ := h.flight p (Multiset.mem_cons_self _ _)
  right q hq := by
    rcases Multiset.mem_cons.mp hq with rfl | hq
    · exact hright
    · exact h.right q (Multiset.mem_cons_of_mem hq)
  told := by
    have hclosed := (h.flight p (Multiset.mem_cons_self _ _)).1
    refine (Stream.makesUp_closed hclosed).mpr
      (((Stream.makesUp_closed hclosed).mp h.told).imp_left ?_)
    rintro ⟨q, hq, hne⟩
    rcases Multiset.mem_cons.mp hq with rfl | hq
    · exact ⟨p', Multiset.mem_cons_self _ _, hseen ▸ hne⟩
    · exact ⟨q, Multiset.mem_cons_of_mem hq, hne⟩

/-! ### The store -/

theorem Stream.isClosed_push (m : Mutation) (stream : Stream) :
    (stream.push m).isClosed = stream.isClosed := by
  cases stream <;> rfl

theorem Synced.mutate (h : Synced J W L g w) {value : Option Bytes}
    (hvalid : ∀ raw, value = some raw → Valid J raw)
    (skip : ℕ) : Synced J W L g (w.mutate name value skip) := by
  unfold World.mutate
  split
  · exact h
  have hraws := w.store.raws_mutate name value skip
  have hlog : ∀ m ∈ w.store.log, m ∈ (w.store.mutate name value skip).log :=
    fun m hm => mem_append_left _ hm
  have hsame : ∀ r ≤ w.store.revision, ∀ name', (w.store.mutate name value skip).Settled r name' →
      w.store.Settled r name' ∧ (w.store.mutate name value skip).raws name'
          = w.store.raws name' := by
    intro r hr name' hsettled
    obtain ⟨hname, hold⟩ := hsettled.of_mutate hr
    exact ⟨hold, by rw [hraws, Function.update_of_ne hname]⟩
  have hcaught :
      w.CaughtUp → ∀ stream, World.CaughtUp ⟨w.store.mutate name value skip, w.snap, stream⟩ := by
    intro hw stream name' hsettled
    obtain ⟨hold, heq⟩ := hsame _ h.dated name' hsettled
    exact (hw name' hold).trans heq.symm
  have hpush := w.stream.isClosed_push (w.store.mutation name value skip)
  have hrevision : w.store.revision ≤ (w.store.mutate name value skip).revision := by
    simp only [FlagStore.mutate]
    omega
  refine ⟨h.loads, h.dated.trans hrevision, h.fresh, h.sound, fun m hm => ?_,
    fun ht => hpush.trans (h.timer ht), h.one,
    fun a ha => ?_, fun p hp => ?_, fun p hp => ?_, ?_⟩
  · rcases mem_append.mp hm with hm | hm
    · exact h.valid m hm
    · rw [List.mem_singleton.mp hm]
      exact hvalid
  · have hfits := h.phase a ha
    cases a with
    | loading => exact ⟨hpush.trans hfits.1, hfits.2⟩
    | watching => trivial
    | pausing => exact hpush.trans hfits
  · obtain ⟨hclosed, hle, hhorizon⟩ := h.flight p hp
    exact ⟨hpush.trans hclosed, hle, hhorizon.trans hrevision⟩
  · exact (h.right p hp).mono (hsame _ (h.flight p hp).2.2) fun _ _ _ hcaught => hcaught
  · have htold := h.told
    cases hstream : w.stream with
    | closed _ =>
      rw [hstream] at htold
      exact htold.imp_right fun hw => hcaught hw _
    | opening _ =>
      rw [hstream] at htold
      exact ⟨htold.1, hcaught htold.2 _⟩
    | live pending =>
      rw [hstream] at htold
      refine ⟨fun m hm => ?_, ?_⟩
      · rcases mem_append.mp hm with hm | hm
        · exact hlog m (htold.1 m hm)
        · rw [WatchEvent.changed.inj (List.mem_singleton.mp hm)]
          exact mem_append_right _ (List.mem_singleton_self _)
      · change replay w.snap.raws (pending ++ [_]) = _
        rw [replay_concat, htold.2, hraws]
        rfl

/-! ### Loads -/

def Progress.start : Progress := ⟨FlagStore.reached none, [], [], [], []⟩

theorem Synced.begins (h : Synced J W L g w) (hclosed : w.stream.isClosed = true) :
    Synced J W (.start ::ₘ L) (Flight.note .begins w g) w := by
  have hhorizon : ∀ p ∈ L, (Flight.note .begins w g).horizon = g.horizon := by
    intro p hp
    refine if_neg ?_
    rw [h.loads]
    exact (card_pos_iff_exists_mem.mpr ⟨p, hp⟩).ne'
  refine ⟨?_, h.dated, h.fresh, h.sound, h.valid, h.timer, h.one, h.phase, fun _ _ => ⟨hclosed, ?_⟩,
    fun p hp => ?_, ?_⟩
  · rw [card_cons, ← h.loads]
    rfl
  · by_cases hL : L = 0
    · have hnew : (Flight.note .begins w g).horizon = w.store.revision :=
        if_pos (by rw [h.loads, hL, card_zero])
      rw [hnew]
      exact ⟨h.dated, le_rfl⟩
    · obtain ⟨p, hp⟩ := exists_mem_of_ne_zero hL
      rw [hhorizon p hp]
      exact (h.flight p hp).2
  · rcases Multiset.mem_cons.mp hp with rfl | hp
    · exact ⟨fun _ ⟨_, hc, _⟩ => (nomatch hc), nofun, nofun, nofun, nofun⟩
    · rw [hhorizon p hp]
      exact h.right p hp
  · refine (Stream.makesUp_closed hclosed).mpr
      (((Stream.makesUp_closed hclosed).mp h.told).imp_left ?_)
    exact fun ⟨q, hq, hne⟩ => ⟨q, Multiset.mem_cons_of_mem hq, hne⟩

theorem Synced.lists {cursor : Option String}
    (h : Synced J W (⟨FlagStore.reached cursor, [], [], [], seen⟩ ::ₘ L) g w) :
    Synced J W
        (⟨FlagStore.passing (w.store.list cursor).2, (w.store.list cursor).1, [], [], seen⟩ ::ₘ L) g
        w := by
  have hright := h.right _ (Multiset.mem_cons_self _ _)
  refine h.progress ⟨fun name hpassed hsettled hsome => ?_, nofun, nofun, nofun, hright.seen⟩ rfl
  rcases FlagStore.mem_list hsome hpassed with hreached | hlisted
  · exact (hright.listed name hreached hsettled hsome).imp_left nofun
  · exact .inl hlisted

/-- A value is read. -/
theorem Synced.values {names : List String} {values : List (String × Option Bytes)}
    {revisions : List ℕ}
    (h : Synced J W (⟨passed, name :: names, values, revisions, seen⟩ ::ₘ L) g w) :
    Synced J W (⟨passed, names, values ++ [(name, w.store.raws name)], revisions, seen⟩ ::ₘ L) g
        w := by
  have hright := h.right _ (Multiset.mem_cons_self _ _)
  refine h.progress ⟨fun name' hpassed hsettled hsome => ?_, fun name' value hmem hsettled => ?_,
    fun name' raw hmem => ?_,
    hright.revisions, hright.seen⟩ rfl
  · rcases hright.listed name' hpassed hsettled hsome with hname | ⟨value, hvalue⟩ | hseen
    · rcases List.mem_cons.mp hname with rfl | hname
      · exact .inr (.inl ⟨_, mem_append_right _ (List.mem_singleton_self _)⟩)
      · exact .inl hname
    · exact .inr (.inl ⟨value, mem_append_left _ hvalue⟩)
    · exact .inr (.inr hseen)
  · rcases mem_append.mp hmem with hmem | hmem
    · exact hright.values name' value hmem hsettled
    · cases List.mem_singleton.mp hmem
      rfl
  · rcases mem_append.mp hmem with hmem | hmem
    · exact hright.valid name' raw hmem
    · obtain ⟨-, hraw⟩ := Prod.ext_iff.mp (List.mem_singleton.mp hmem)
      obtain ⟨entry, hentry, rfl⟩ := Option.map_eq_some_iff.mp hraw.symm
      exact h.valid _ (FlagStore.mem_log_of_records hentry) _ rfl

/-- Its revision is read. -/
theorem Synced.revisions {names : List String} {values : List (String × Option Bytes)}
    {revisions : List ℕ} (h : Synced J W (⟨passed, names, values, revisions, seen⟩ ::ₘ L) g w)
    {r : ℕ} (hr : 0 < r ∧ r ≤ g.horizon) :
    Synced J W (⟨passed, names, values, revisions ++ [r], seen⟩ ::ₘ L) g w := by
  have hright := h.right _ (Multiset.mem_cons_self _ _)
  refine h.progress ⟨hright.listed, hright.values, hright.valid, fun r' hr' => ?_, hright.seen⟩ rfl
  rcases mem_append.mp hr' with hr' | hr'
  · exact hright.revisions r' hr'
  · exact List.mem_singleton.mp hr' ▸ hr

/-- What a load has read of its page, and has yet to read. -/
def Progress.read (passed : Set String) (names : List String)
    (entries : List (String × Option Entry))
    (seen : List String) : Progress :=
  ⟨passed, names, entries.map fun x => (x.1, x.2.map Entry.value), entries.filterMap fun x =>
    x.2.map Entry.revision, seen⟩

theorem Synced.applyEntry {entry : Option Entry}
    {entries : List (String × Option Entry)} {t : Tally}
    (h : Synced J W (.read passed [] ((name, entry) :: entries) t.seen ::ₘ L) g w) :
    let r := Snapshots.applyEntry J name entry (t, w.snap)
    Synced J W (.read passed [] entries r.1.seen ::ₘ L) g { w with snap := r.2 } := by
  have hright := h.right _ (Multiset.mem_cons_self _ _)
  obtain ⟨hclosed, hle, hhorizon⟩ := h.flight _ (Multiset.mem_cons_self _ _)
  cases entry with
  | none =>
    refine h.progress ⟨fun name' hpassed hsettled hsome => ?_, fun name' value hmem => ?_,
      fun name' raw hmem => ?_,
      hright.revisions, hright.seen⟩ rfl
    · rcases hright.listed name' hpassed hsettled hsome with hname | ⟨value, hvalue⟩ | hseen
      · cases hname
      · rcases List.mem_cons.mp hvalue with heq | hvalue
        · -- Nothing was read, so that there is nothing.
          have hnone := hright.values name' value (heq ▸ List.mem_cons_self) hsettled
          cases heq
          exact absurd hnone.symm hsome
        · exact .inr (.inl ⟨value, hvalue⟩)
      · exact .inr (.inr hseen)
    · exact hright.values name' value (List.mem_cons_of_mem _ hmem)
    · exact hright.valid name' raw (List.mem_cons_of_mem _ hmem)
  | some entry =>
    have hvalid := hright.valid name entry.value List.mem_cons_self
    obtain ⟨hpos, hold⟩ := hright.revisions entry.revision List.mem_cons_self
    have hvalue : w.store.Settled g.horizon name → some entry.value = w.store.raws name :=
      hright.values name _ List.mem_cons_self
    have hbecomes := Snapshot.becomes_observed (s := w.snap) name hvalid entry.revision
    have hkeeps : ∀ name', w.store.Settled g.horizon name' →
      w.snap.raws name' = w.store.raws name' →
        Function.update w.snap.raws name (some entry.value) name' = w.store.raws name' := by
      intro name' hsettled hcaught
      by_cases hname : name' = name
      · subst hname
        rw [Function.update_self]
        exact hvalue hsettled
      · rwa [Function.update_of_ne hname]
    refine h.snap hbecomes (by rw [h.loads, card_cons, card_cons])
      (max_le (hle.trans hhorizon) (hold.trans hhorizon))
      (fun hzero => absurd hzero (lt_max_of_lt_right hpos).ne')
      (fun _ _ => ⟨hclosed, max_le hle hold, hhorizon⟩) (fun q hq => ?_)
      ((Stream.makesUp_closed hclosed).mpr (.inl ⟨_, Multiset.mem_cons_self _ _, cons_ne_nil _ _⟩))
    rcases Multiset.mem_cons.mp hq with rfl | hq
    · refine ⟨fun name' hpassed hsettled hsome => ?_, fun name' value hmem => ?_,
        fun name' raw hmem => ?_, fun r hr => ?_,
        fun name' hname hsettled => ?_⟩
      · rcases hright.listed name' hpassed hsettled hsome with hname | ⟨value, hmem⟩ | hseen
        · cases hname
        · rcases List.mem_cons.mp hmem with heq | hmem
          · cases heq
            exact .inr (.inr List.mem_cons_self)
          · exact .inr (.inl ⟨value, hmem⟩)
        · exact .inr (.inr (List.mem_cons_of_mem _ hseen))
      · exact hright.values name' value (List.mem_cons_of_mem _ hmem)
      · exact hright.valid name' raw (List.mem_cons_of_mem _ hmem)
      · exact hright.revisions r (List.mem_cons_of_mem _ hr)
      · have hraws := congrFun hbecomes.raws name'
        rcases List.mem_cons.mp hname with rfl | hname
        · rw [Function.update_self] at hraws
          exact ⟨fun hnone => Option.some_ne_none _ ((hvalue hsettled).trans hnone),
            hraws.trans (hvalue hsettled)⟩
        · obtain ⟨hsome, hcaught⟩ := hright.seen name' hname hsettled
          exact ⟨hsome, hraws.trans (hkeeps name' hsettled hcaught)⟩
    · refine (h.right q (Multiset.mem_cons_of_mem hq)).mono
        (fun name' hsettled => ⟨hsettled, rfl⟩) ?_
      intro name' hsettled _ hcaught
      exact (congrFun hbecomes.raws name').trans (hkeeps name' hsettled hcaught)

theorem Synced.applyPage {entries : List (String × Option Entry)} {t : Tally}
    (h : Synced J W (.read passed [] entries t.seen ::ₘ L) g w) :
    let r := Snapshots.applyPage J entries (t, w.snap)
    Synced J W (.read passed [] [] r.1.seen ::ₘ L) g { w with snap := r.2 } := by
  induction entries generalizing t w with
  | nil => exact h
  | cons x entries ih => exact ih h.applyEntry

/-- The end of a load mends whatever loads have done. -/
theorem Synced.sweeps {t : Tally} (h : Synced J W (.read Set.univ [] [] t.seen ::ₘ L) g w) :
    Synced J W L (Flight.note .ends w g) { w with snap := w.snap.sweep t } := by
  have hright := h.right _ (Multiset.mem_cons_self _ _)
  obtain ⟨hclosed, hle, hhorizon⟩ := h.flight _ (Multiset.mem_cons_self _ _)
  have hbecomes := Snapshot.becomes_sweep (J := J) w.snap t
  have hseen : ∀ name', w.store.Settled g.horizon name' → w.store.raws name' ≠ none →
      name' ∈ t.seen := by
    intro name' hsettled hsome
    rcases hright.listed name' (Set.mem_univ _) hsettled hsome with hname | ⟨_, hvalue⟩ | hseen
    · cases hname
    · cases hvalue
    · exact hseen
  refine h.snap hbecomes ?_ h.dated (fun hzero name' => ?_) (fun _ _ => ⟨hclosed, hle, hhorizon⟩)
    (fun q hq => ?_)
    ((Stream.makesUp_closed hclosed).mpr (.inr fun name' hsettled => ?_))
  · have hloads := h.loads
    rw [card_cons] at hloads
    simp only [Flight.note]
    omega
  · rw [h.fresh hzero name', ite_self]
  · refine (h.right q (Multiset.mem_cons_of_mem hq)).mono (fun name' hsettled => ⟨hsettled, rfl⟩) ?_
    intro name' hsettled hsome hcaught
    exact (congrFun hbecomes.raws name').trans ((if_pos (hseen name' hsettled hsome)).trans hcaught)
  · have hold : w.store.Settled g.horizon name' := fun m hm hname =>
      (hsettled m hm hname).trans (hbecomes.revision.trans_le hle)
    refine (congrFun hbecomes.raws name').trans ?_
    by_cases hmem : name' ∈ t.seen
    · exact (if_pos hmem).trans (hright.seen name' hmem hold).2
    · refine (if_neg hmem).trans ?_
      by_contra hne
      exact hmem (hseen name' hold (Ne.symm hne))

/-- A load that has read nothing may fail. -/
theorem Synced.fails (h : Synced J W (p ::ₘ L) g w) (hseen : p.seen = []) :
    Synced J W L (Flight.note (.fails []) w g) w := by
  have hclosed := (h.flight _ (Multiset.mem_cons_self _ _)).1
  refine ⟨?_, h.dated, h.fresh, h.sound, h.valid, h.timer, h.one, h.phase,
    fun q hq => h.flight q (Multiset.mem_cons_of_mem hq),
    fun q hq => h.right q (Multiset.mem_cons_of_mem hq),
    (Stream.makesUp_closed hclosed).mpr (((Stream.makesUp_closed hclosed).mp h.told).imp_left ?_)⟩
  · have hloads := h.loads
    rw [card_cons] at hloads
    simp only [Flight.note]
    omega
  · rintro ⟨q, hq, hne⟩
    rcases Multiset.mem_cons.mp hq with rfl | hq
    · exact absurd hseen hne
    · exact ⟨q, hq, hne⟩

/-! ### The watch -/

/-- Nothing happens that matters. -/
theorem Synced.same (h : Synced J W L g w) {s' : Snapshot}
    (hbecomes : w.snap.Becomes J s' w.snap.raws w.snap.lastRevision) :
    Synced J W L g { w with snap := s' } := by
  have hcaught : w.CaughtUp → World.CaughtUp { w with snap := s' } := by
    intro hw name' hsettled
    exact (congrFun hbecomes.raws name').trans (hw name' (hbecomes.revision ▸ hsettled))
  refine h.snap hbecomes h.loads h.dated h.fresh h.flight (fun p hp => ?_) ?_
  · refine (h.right p hp).mono (fun name' hsettled => ⟨hsettled, rfl⟩) fun name' _ _ heq => ?_
    exact (congrFun hbecomes.raws name').trans heq
  · have htold := h.told
    cases hstream : w.stream with
    | closed _ =>
      rw [hstream] at htold
      exact htold.imp_right hcaught
    | opening _ =>
      rw [hstream] at htold
      exact ⟨htold.1.trans hbecomes.revision.symm, hcaught htold.2⟩
    | live pending =>
      rw [hstream] at htold
      exact ⟨htold.1, (congrArg (replay · pending) hbecomes.raws).trans htold.2⟩

/-- With the stream up there are no loads and no timer. -/
theorem Synced.up (h : Synced J W L g w) (hup : w.stream.isClosed = false) :
    L = 0 ∧ w.snap.pollTimer = false ∧ ∀ a ∈ W, a = .watching := by
  have hnot : w.stream.isClosed ≠ true := by rw [hup]; exact Bool.false_ne_true
  refine ⟨eq_zero_of_forall_notMem fun p hp => hnot (h.flight p hp).1,
    Bool.eq_false_iff.mpr fun htimer => hnot (h.timer htimer), fun a ha => ?_⟩
  have hfits := h.phase a ha
  cases a with
  | loading => exact absurd hfits.1 hnot
  | watching => rfl
  | pausing => exact absurd hfits hnot

theorem Synced.receives {e : WatchEvent} {pending : List WatchEvent} (h : Synced J W L g w)
    (hstream : w.stream = .live (e :: pending)) :
    Synced J W L g ⟨w.store, w.snap.receive J e, .live pending⟩
        ∧ (w.snap.receive J e).closed = w.snap.closed := by
  obtain ⟨rfl, htimer, hphase⟩ := h.up (by rw [hstream]; rfl)
  have htold := h.told
  rw [hstream] at htold
  obtain ⟨hlog, hreplay⟩ := htold
  have hmem : ∀ m, e = .changed m → m ∈ w.store.log := fun m hm => hlog m (hm ▸ List.mem_cons_self)
  have hbecomes := Snapshot.becomes_receive (s := w.snap) fun m hm => h.valid m (hmem m hm)
  have hdated : e.revision ≤ w.store.revision := by
    cases e with
    | ready => exact Nat.zero_le _
    | changed m => exact (w.store.dated m (hmem m rfl)).2
  refine ⟨⟨h.loads, hbecomes.revision.trans_le (max_le h.dated hdated), fun hzero name' => ?_,
    hbecomes.sound h.sound,
    h.valid, fun ht => ?_, h.one, fun a ha => hphase a ha ▸ trivial, nofun, nofun,
    fun m hm => hlog m (List.mem_cons_of_mem _ hm),
      (congrArg (replay · pending) hbecomes.raws).trans hreplay⟩,
    hbecomes.closed⟩
  · have hmax := hbecomes.revision.symm.trans hzero
    cases e with
    | ready => exact h.fresh (Nat.max_eq_zero_iff.mp hmax).1 name'
    | changed m => exact absurd (Nat.max_eq_zero_iff.mp hmax).2 (w.store.dated m (hmem m rfl)).1.ne'
  · rw [hbecomes.pollTimer, htimer] at ht
    cases ht

/-- What the stream had left will be told again. -/
theorem Synced.breaks (h : Synced J W L g w) (hlive : w.stream.isLive = true)
    (htellable : w.stream.Tellable w.snap.lastRevision) (error : Bool) :
    Synced J W L g { w with stream := .closed error } := by
  cases hstream : w.stream with
  | closed _ => rw [hstream] at hlive; cases hlive
  | opening _ => rw [hstream] at hlive; cases hlive
  | live pending =>
    obtain ⟨rfl, htimer, hphase⟩ := h.up (by rw [hstream]; rfl)
    have htold := h.told
    rw [hstream] at htold htellable
    obtain ⟨hlog, hreplay⟩ := htold
    refine ⟨h.loads, h.dated, h.fresh, h.sound, h.valid, fun _ => rfl, h.one,
      fun a ha => hphase a ha ▸ trivial, nofun,
      nofun, .inr fun name' hsettled => ?_⟩
    change w.snap.raws name' = w.store.raws name'
    rw [← hreplay]
    refine (replay_untold fun m hm hname => ?_).symm
    exact absurd (hsettled m (hlog m hm) hname) (Nat.not_le.mpr (htellable _ hm))

theorem Synced.opens (h : Synced J W L g w) (hclosed : w.stream.isClosed = true)
    (htimer : w.snap.pollTimer = false)
    (hloads : g.loads = 0) :
    Synced J {.watching} L g { w with stream := .opening w.snap.lastRevision } := by
  obtain rfl : L = 0 := card_eq_zero.mp (h.loads.symm.trans hloads)
  have hcaught : w.CaughtUp := ((Stream.makesUp_closed hclosed).mp h.told).resolve_left
    fun ⟨_, hp, _⟩ =>
    notMem_zero _ hp
  refine ⟨h.loads, h.dated, h.fresh, h.sound, h.valid, fun ht => ?_,
    by simp, fun a ha => ?_, nofun, nofun, rfl, hcaught⟩
  · rw [htimer] at ht
    cases ht
  · rw [Multiset.mem_singleton.mp ha]
    trivial

/-- Requests are counted. -/
theorem Synced.asked (h : Synced J W L g w) (n : ℕ) :
    Synced J W L g { w with store := { w.store with requests := n } } :=
  ⟨h.loads, h.dated, h.fresh, h.sound, h.valid, h.timer, h.one, h.phase, h.flight,
    fun p hp => (h.right p hp).mono (fun _ hsettled => ⟨hsettled, rfl⟩) fun _ _ _ hcaught =>
      hcaught, h.told⟩

theorem Synced.subscribes (h : Synced J W L g w) : Synced J W L g w.subscribe := by
  unfold World.subscribe FlagStore.attempt
  cases hstream : w.stream with
  | closed _ => exact h
  | live _ => exact h
  | opening since =>
    have hasked := h.asked (w.store.requests + 1)
    obtain ⟨rfl, htimer, hphase⟩ := hasked.up (by rw [hstream]; rfl)
    have htold := h.told
    rw [hstream] at htold
    obtain ⟨rfl, hcaught⟩ := htold
    cases w.store.fails w.store.requests with
    | some e =>
      exact ⟨h.loads, h.dated, h.fresh, h.sound, h.valid, fun _ => rfl, h.one,
        fun a ha => hphase a ha ▸ trivial, nofun,
        nofun, .inr hcaught⟩
    | none =>
      refine ⟨h.loads, h.dated, h.fresh, h.sound, h.valid, fun ht => ?_, h.one,
        fun a ha => hphase a ha ▸ trivial,
        nofun, nofun, fun m hm => FlagStore.mem_log_of_initial hm, ?_⟩
      · exact absurd (htimer.symm.trans ht) Bool.false_ne_true
      · exact FlagStore.replay_initial h.fresh hcaught

/-- The stream is down, and the timer is set or cleared. -/
theorem Synced.polls (h : Synced J W L g w) (hclosed : w.stream.isClosed = true) (b : Bool)
    {W' : Multiset Phase}
    (hone : W'.card ≤ 1) (hW : ∀ a ∈ W', a = .pausing) :
    Synced J W' L g { w with snap := { w.snap with pollTimer := b } } := by
  refine ⟨h.loads, h.dated, h.fresh, h.sound, h.valid, fun _ => hclosed, hone,
    fun a ha => hW a ha ▸ hclosed, h.flight, ?_, ?_⟩
  · exact fun p hp => (h.right p hp).mono (fun _ hsettled => ⟨hsettled, rfl⟩)
      fun _ _ _ hcaught => hcaught
  · exact (Stream.makesUp_closed hclosed).mpr ((Stream.makesUp_closed hclosed).mp h.told)

theorem synced_start {s₀ : FlagStore} (hvalid : ∀ m ∈ s₀.log, m.Valid J) :
    Synced J {.loading} 0 ⟨0, 0⟩ (World.start s₀) := by
  have hnone : ∀ name', Snapshot.new.raws name' = none :=
    fun name' => by simp [Snapshot.raws, Snapshot.new]
  refine ⟨rfl, Nat.zero_le _, fun _ => hnone, fun name' slot h => ?_, hvalid, fun h => ?_,
    by simp, fun a ha => ?_,
    by simp, by simp, .inr fun name' hsettled => ?_⟩
  · simp [World.start, Snapshot.new] at h
  · cases h
  · rw [Multiset.mem_singleton.mp ha]
    exact ⟨rfl, rfl⟩
  · exact (hnone name').trans (FlagStore.raws_eq_none hsettled).symm

theorem Synced.converged (h : Synced J W L g w) (hidle : w.stream = .live []) (name : String) :
    w.snap.get name = w.store.records[name]?.bind fun entry =>
        (decodeFlagDef J entry.value).toOption.join := by
  have htold := h.told
  rw [hidle] at htold
  have hraws : w.snap.raws name = w.store.raws name := congrFun htold.2 name
  rw [h.sound.get, hraws, FlagStore.raws, Option.bind_map]
  rfl

end synced

/-! ## The tasks keep it -/

/-- What a task has in its hands: the snapshot, or a load. -/
inductive Token where
  | phase (a : Phase)
  | load (p : Progress)

def Token.phases : Token → Multiset Phase
  | .phase a => {a}
  | .load _ => 0

def Token.loads : Token → Multiset Progress
  | .phase _ => 0
  | .load p => {p}

/-- The snapshot is closed, or in step with the store. -/
def Inv (J : JsonText) (M : Multiset Token) (g : Flight) (w : World) : Prop :=
  w.snap.closed = true ∧ w.stream.isClosed = true
    ∨ w.snap.closed = false ∧ Synced J (M.bind Token.phases) (M.bind Token.loads) g w

abbrev syncing (J : JsonText) : Regime World Mark Flight Token := .plain careful (Inv J)

section tasks
variable {J : JsonText} {f : Multiset Token} {g g' : Flight} {w w' : World} {p p' : Progress}
  {a : Phase} {B : Locks.Backend}
  {n : ℕ}

theorem phases_load (M : Multiset Token) :
    ({.load p} + M).bind Token.phases = M.bind Token.phases := by
  rw [add_bind, singleton_bind, Token.phases, zero_add]

theorem loads_load (M : Multiset Token) :
    ({.load p} + M).bind Token.loads = p ::ₘ M.bind Token.loads := by
  rw [add_bind, singleton_bind, Token.loads, singleton_add]

theorem phases_phase (M : Multiset Token) :
    ({.phase a} + M).bind Token.phases = a ::ₘ M.bind Token.phases := by
  rw [add_bind, singleton_bind, Token.phases, singleton_add]

theorem loads_phase (M : Multiset Token) :
    ({.phase a} + M).bind Token.loads = M.bind Token.loads := by
  rw [add_bind, singleton_bind, Token.loads, zero_add]

theorem Inv.step {M M' : Multiset Token} (h : Inv J M g w)
    (hclosed : w'.snap.closed = w.snap.closed)
    (hstream : w.stream.isClosed = true → w'.stream.isClosed = true)
    (hsynced : Synced J (M.bind Token.phases) (M.bind Token.loads) g w →
      Synced J (M'.bind Token.phases) (M'.bind Token.loads) g' w') : Inv J M' g' w' :=
  h.imp (fun h => ⟨hclosed.trans h.1, hstream h.2⟩) fun h => ⟨hclosed.trans h.1, hsynced h.2⟩

/-- The snapshot changes in nothing that matters. -/
theorem Inv.same {M : Multiset Token} (h : Inv J M g w) {s' : Snapshot}
    (hbecomes : w.snap.Becomes J s' w.snap.raws w.snap.lastRevision) :
    Inv J M g { w with snap := s' } :=
  h.step hbecomes.closed id fun h => h.same hbecomes

/-- A load takes a step. -/
theorem Inv.load (h : Inv J ({.load p} + f) g w) (hclosed : w'.snap.closed = w.snap.closed)
    (hstream : w'.stream = w.stream) (hsynced : ∀ W L, Synced J W (p ::ₘ L) g w →
      Synced J W (p' ::ₘ L) g' w') :
    Inv J ({.load p'} + f) g' w' := by
  refine h.step hclosed (fun hs => hstream ▸ hs) fun h => ?_
  rw [phases_load, loads_load] at h ⊢
  exact hsynced _ _ h

/-- A load takes its last step. -/
theorem Inv.unload (h : Inv J ({.load p} + f) g w) (hclosed : w'.snap.closed = w.snap.closed)
    (hstream : w'.stream = w.stream) (hsynced : ∀ W L, Synced J W (p ::ₘ L) g w →
      Synced J W L g' w') :
    Inv J (0 + f) g' w' := by
  refine h.step hclosed (fun hs => hstream ▸ hs) fun h => ?_
  rw [phases_load, loads_load] at h
  rw [zero_add]
  exact hsynced _ _ h

/-- The snapshot is in nobody else's hands. -/
theorem Inv.phase (h : Inv J ({.phase a} + f) g w) (hopen : w.snap.closed = false) :
    f.bind Token.phases = 0 ∧ Synced J {a} (f.bind Token.loads) g w := by
  rcases h with ⟨hclosed, -⟩ | ⟨-, h⟩
  · rw [hopen] at hclosed
    cases hclosed
  · rw [phases_phase, loads_phase] at h
    have hone := h.one
    rw [card_cons] at hone
    have hnone : f.bind Token.phases = 0 := card_eq_zero.mp (by omega)
    rw [hnone] at h
    exact ⟨hnone, h⟩

theorem Inv.of_phase (hopen : w.snap.closed = false) (hnone : f.bind Token.phases = 0)
    (h : Synced J {a} (f.bind Token.loads) g w) : Inv J ({.phase a} + f) g w := by
  refine .inr ⟨hopen, ?_⟩
  rw [phases_phase, loads_phase, hnone]
  exact h

/-- A closed snapshot is of no concern to anybody. -/
theorem Inv.closed {M : Multiset Token} (h : Inv J M g w) (hclosed : w.snap.closed = true)
    (M' : Multiset Token) :
    Inv J M' g w := by
  rcases h with h | ⟨hopen, -⟩
  · exact .inl h
  · rw [hclosed] at hopen
    cases hopen

theorem triple_hang {α : Type} {pre : Multiset Token} {post : α → Multiset Token → Prop} (b : α) :
    Triple (syncing J) pre (hang b) post :=
  fun _ _ _ hi => ⟨pre, hi, trivial, fun _ _ _ _ hr => absurd hr Bool.false_ne_true⟩

/-! ### Loads -/

theorem triple_request {β : Type} {read : FlagStore → β}
    {Q : Except KvError β → Multiset Token → Prop}
    (hok : ∀ f g w, Inv J ({.load p} + f) g w → ∃ own, Inv J (own + f) g w
      ∧ Q (.ok (read w.store)) own)
    (herror : ∀ e, Q (.error e) {.load p}) : Triple (syncing J) {.load p} (request read) Q := by
  have hasked :
    ∀ {M g w}, Inv J M g w →
    Inv J M g { w with store := { w.store with requests := w.store.requests + 1 } } :=
    fun h => h.step rfl id fun h => h.asked _
  refine Triple.exchange fun f g w hi _ => ?_
  unfold World.serve FlagStore.attempt
  cases w.store.fails w.store.requests with
  | none =>
    obtain ⟨own, hinv, hpost⟩ := hok f g w hi
    exact ⟨own, hasked hinv, hpost⟩
  | some e => exact ⟨_, hasked hi, herror e⟩

theorem Progress.read_concat (passed : Set String) (names : List String)
    (entries : List (String × Option Entry))
    (seen : List String) (name : String) (entry : Option Entry) :
    Progress.read passed names (entries ++ [(name, entry)]) seen
      = ⟨passed, names, (Progress.read passed names entries seen).values
        ++ [(name, entry.map Entry.value)],
        (Progress.read passed names entries seen).revisions
          ++ (entry.map Entry.revision).toList, seen⟩ := by
  cases entry <;> simp [Progress.read]

theorem triple_readEntry (passed : Set String) (names : List String)
    (entries : List (String × Option Entry))
    (seen : List String) (name : String) :
    Triple (syncing J) {.load (.read passed (name :: names) entries seen)} (readEntry name B)
      fun entry own => own = {.load (.read passed names (entries ++ [(name, entry)]) seen)} := by
  intro f g w hi
  have hvalue := hi.load rfl rfl fun W L h => h.values
  cases B with
  | http =>
    simp only [readEntry, wpi_seq, wpi_gets]
    rw [FlagStore.raws] at hvalue
    cases hentry : w.store.records[name]? with
    | none =>
      rw [hentry] at hvalue
      refine ⟨_, ?_, rfl⟩
      simp only [Progress.read_concat, Option.map_none, Option.toList_none, append_nil]
      exact hvalue
    | some entry =>
      rw [hentry] at hvalue
      intro hallow
      refine ⟨_, ?_, rfl⟩
      rw [Progress.read_concat]
      exact hvalue.load rfl rfl fun W L h => h.revisions hallow
  | resp =>
    simp only [readEntry, wpi_seq, wpi_gets]
    change wpi (syncing J) Prog.yield (fun _ => _) f g w
    refine (wpi_yield _).mpr ⟨_, hvalue, fun f g w' hi' => ?_⟩
    change Inv J
      ({.load ⟨passed, names, _ ++ [(name, w.store.records[name]?.map Entry.value)], _, seen⟩}
      + f) g w' at hi'
    cases hread : w.store.records[name]?.map Entry.value with
    | none =>
      rw [hread] at hi'
      refine ⟨_, ?_, rfl⟩
      simp only [Progress.read_concat, Option.map_none, Option.toList_none, append_nil]
      exact hi'
    | some value =>
      rw [hread] at hi'
      intro hallow
      refine ⟨_, ?_, rfl⟩
      rw [Progress.read_concat]
      exact hi'.load rfl rfl fun W L h => h.revisions hallow

theorem triple_readEntries (passed : Set String) (names : List String)
    (entries : List (String × Option Entry))
    (seen : List String) :
    Triple (syncing J) {.load (.read passed names entries seen)} (readEntries B names)
      fun rest own => own = {.load (.read passed [] (entries ++ rest) seen)} := by
  induction names generalizing entries with
  | nil => exact .ret (by rw [append_nil])
  | cons name names ih =>
    refine (triple_readEntry passed names entries seen name).seq ?_
    rintro entry _ rfl
    refine Triple.yield.seq ?_
    rintro _ _ rfl
    refine (ih _).seq ?_
    rintro rest _ rfl
    exact .ret (by rw [append_assoc, singleton_append])

theorem triple_batchGet (passed : Set String) (names : List String) (seen : List String) :
    Triple (syncing J) {.load (.read passed names [] seen)} (batchGet B names) fun r own =>
      match r with
      | .ok entries => own = {.load (.read passed [] entries seen)}
      | .error _ => own = {.load (.read passed names [] seen)} := by
  refine (triple_request (Q := fun _ own => own = {.load (.read passed names [] seen)})
    (fun f g w hi => ⟨_, hi, rfl⟩) fun _ => rfl).seq ?_
  rintro r _ rfl
  match r with
  | .error e => exact .ret rfl
  | .ok () =>
    refine (triple_readEntries passed names [] seen).seq ?_
    rintro entries _ rfl
    exact .ret rfl

theorem triple_readPage (passed : Set String) (names : List String) (seen : List String) :
    Triple (syncing J) {.load (.read passed names [] seen)} (readPage B names) fun r own =>
      match r with
      | .ok entries => own = {.load (.read passed [] entries seen)}
      | .error _ => own = {.load (.read passed names [] seen)} := by
  cases names with
  | nil => exact .ret rfl
  | cons name names => exact triple_batchGet passed (name :: names) seen

theorem triple_fails {e : KvError} {post : Except KvError Tally → Multiset Token → Prop}
    (hpost : post (.error e) 0) :
    Triple (syncing J) {.load p} (do Prog.at_ (.fails p.seen); return .error e) post := by
  intro f g w hi hallow
  refine ⟨0, hi.unload rfl rfl fun W L h => ?_, hpost⟩
  rw [show p.seen = [] from hallow]
  exact h.fails hallow

theorem closed_applyPage (entries : List (String × Option Entry)) (x : Tally × Snapshot) :
    (applyPage J entries x).2.closed = x.2.closed := by
  induction entries generalizing x with
  | nil => rfl
  | cons y entries ih =>
    refine (ih _).trans ?_
    obtain ⟨name, entry⟩ := y
    cases entry with
    | none => rfl
    | some entry =>
      exact (Snapshot.closed_applyValue _ _ _).trans (Snapshot.becomes_observe (J := J) _ _).closed

theorem triple_loadPages (cursor : Option String) (t : Tally) :
    Triple (syncing J) {.load (.read (FlagStore.reached cursor) [] [] t.seen)}
      (loadPages J B n cursor t) fun r own =>
      match r with
      | .ok t' => own = {.load (.read Set.univ [] [] t'.seen)}
      | .error _ => own = 0 := by
  induction n generalizing cursor t with
  | zero => exact triple_hang _
  | succ n ih =>
    refine (triple_request (Q := fun r own =>
      match r with
      | .ok (names, next) => own = {.load (.read (FlagStore.passing next) names [] t.seen)}
      | .error _ => own = {.load (.read (FlagStore.reached cursor) [] [] t.seen)})
      (fun f g w hi => ⟨_, hi.load rfl rfl fun W L h => h.lists, rfl⟩) fun _ => rfl).seq ?_
    rintro (e | ⟨names, next⟩) own hown
    · obtain rfl := hown
      exact triple_fails rfl
    · obtain rfl := hown
      refine (triple_readPage _ names t.seen).seq ?_
      rintro (e | entries) own hown
      · obtain rfl := hown
        exact triple_fails rfl
      · obtain rfl := hown
        have happly : Triple (syncing J) {.load (.read (FlagStore.passing next) [] entries t.seen)}
            (Prog.step fun w =>
              ((applyPage J entries (t, w.snap)).1,
              { w with snap := (applyPage J entries (t, w.snap)).2 }))
            fun t' own => own = {.load (.read (FlagStore.passing next) [] [] t'.seen)} :=
              fun f g w hi =>
          ⟨_, hi.load (closed_applyPage entries (t, w.snap)) rfl fun W L h => h.applyPage, rfl⟩
        refine happly.seq ?_
        rintro t' _ rfl
        cases next with
        | none => exact .ret rfl
        | some cursor => exact ih (some cursor) t'

theorem triple_loadRest : Triple (syncing J) {.load .start} (loadRest J B n) (Owning 0) := by
  refine (triple_loadPages none ⟨[], []⟩).seq ?_
  rintro (e | t) own hown
  · obtain rfl := hown
    exact .ret rfl
  · obtain rfl := hown
    intro f g w hi _
    exact ⟨0, hi.unload (Snapshot.becomes_sweep (J := J) w.snap t).closed rfl fun W L h =>
      h.sweeps, rfl⟩

/-- A load may begin as long as the stream is down. -/
theorem wpi_loadReported {pre : Multiset Token} (h : Inv J (pre + f) g w)
    (hdown : w.snap.closed = false → w.stream.isClosed = true) :
    wpi (syncing J) (loadReported J B n) (Gives (syncing J) (Owning pre)) f g w := by
  have hrest := (triple_loadRest (J := J) (B := B) (n := n)).frame (fun _ _ _ _ => trivial) pre
  have hbegun : Inv J ({.load .start} + pre + f) (Flight.note .begins w g) w := by
    refine h.imp_right fun ⟨hopen, h⟩ => ⟨hopen, ?_⟩
    rw [add_assoc, phases_load, loads_load]
    exact h.begins (hdown hopen)
  simp only [loadReported, loadAll, wpi_seq, wpi_at]
  intro _
  refine wpi_mono (hrest f _ w hbegun) ?_
  rintro (e | ⟨⟩) f g w ⟨_, hi, own, rfl, rfl⟩
  · rw [zero_add] at hi
    exact ⟨pre, hi.same ⟨rfl, rfl, rfl, rfl, id⟩, rfl⟩
  · rw [zero_add] at hi
    exact ⟨pre, hi, rfl⟩

/-! ### The snapshot itself -/

/-- The stream is over, or the snapshot is closed. -/
def Over (J : JsonText) (_ : Unit) (f : Multiset Token) (g : Flight) (w : World) : Prop :=
  Inv J ({.phase .watching} + f) g w ∧ (w.snap.closed = false → w.stream.isClosed = true)

theorem wpi_events (h : Inv J ({.phase .watching} + f) g w) :
    wpi (syncing J) (events J n) (Over J) f g w := by
  induction n generalizing f g w with
  | zero => exact ⟨_, h, trivial, fun _ _ _ _ hr => absurd hr Bool.false_ne_true⟩
  | succ n ih =>
    simp only [events, wpi_seq]
    refine (wpi_wait _ _).mpr ⟨_, h, trivial, fun f g w h htells => ?_⟩
    rw [wpi_step]
    unfold World.tells at htells
    unfold World.next
    cases hstream : w.stream with
    | opening _ => rw [hstream] at htells; cases htells
    | closed _ => exact ⟨h, fun _ => by rw [hstream]; rfl⟩
    | live pending =>
      cases pending with
      | nil => rw [hstream] at htells; cases htells
      | cons e pending =>
        simp only [wpi_seq, wpi_gets]
        have hopen : w.snap.closed = false := by
          rcases h with ⟨-, hclosed⟩ | ⟨hopen, -⟩
          · rw [hstream] at hclosed
            cases hclosed
          · exact hopen
        obtain ⟨hnone, hsynced⟩ := h.phase hopen
        rw [if_neg (by rw [hopen]; exact Bool.false_ne_true), wpi_seq, wpi_modify]
        obtain ⟨hnext, hclosed⟩ := hsynced.receives hstream
        exact ih (.of_phase (hclosed.trans hopen) hnone hnext)

theorem Snapshot.startPolling_eq {s : Snapshot} (hopen : s.closed = false) :
    s.startPolling = { s with pollTimer := true } := by
  unfold startPolling
  cases htimer : s.pollTimer with
  | false => simp [hopen]
  | true =>
    rw [Bool.or_true, if_pos rfl, ← htimer]

theorem Synced.starts (h : Synced J {a} L g w) (hopen : w.snap.closed = false)
    (hdown : w.stream.isClosed = true)
    {W : Multiset Phase} (hone : W.card ≤ 1) (hW : ∀ a ∈ W, a = .pausing) :
    Synced J W L g (w.onSnap Snapshot.startPolling) := by
  unfold World.onSnap
  rw [Snapshot.startPolling_eq hopen]
  exact h.polls hdown true hone hW

theorem Inv.pauses (h : Inv J ({.phase a} + f) g w) (hopen : w.snap.closed = false)
    (hdown : w.stream.isClosed = true) :
    Inv J ({.phase .pausing} + f) g (w.onSnap Snapshot.startPolling) := by
  obtain ⟨hnone, hsynced⟩ := h.phase hopen
  have hclosed : (w.onSnap Snapshot.startPolling).snap.closed = false := by
    unfold World.onSnap
    rw [Snapshot.startPolling_eq hopen]
    exact hopen
  exact .of_phase hclosed hnone
    (hsynced.starts hopen hdown (card_singleton _).le fun _ => Multiset.mem_singleton.mp)

theorem subscribe_closed (w : World) :
    w.subscribe.snap.closed = w.snap.closed
        ∧ (w.stream.isClosed = true → w.subscribe.stream.isClosed = true) := by
  unfold World.subscribe FlagStore.attempt
  cases hstream : w.stream with
  | closed _ => exact ⟨rfl, fun _ => by rw [hstream]; rfl⟩
  | live _ => exact ⟨rfl, nofun⟩
  | opening _ => cases w.store.fails w.store.requests <;> exact ⟨rfl, nofun⟩

/-- With the stream down and the timer off the watch may be opened. -/
theorem wpi_runWatch (h : Inv J ({.phase a} + f) g w)
    (hready : w.snap.closed = false → w.stream.isClosed = true ∧ w.snap.pollTimer = false) :
    wpi (syncing J) (runWatch J n) (Gives (syncing J) Clean) f g w := by
  induction n generalizing a f g w with
  | zero => exact ⟨_, h, trivial, fun _ _ _ _ hr => absurd hr Bool.false_ne_true⟩
  | succ n ih =>
    simp only [runWatch, wpi_seq, wpi_gets]
    cases hopen : w.snap.closed with
    | true => exact ⟨0, h.closed hopen _, rfl⟩
    | false =>
      obtain ⟨hnone, hsynced⟩ := h.phase hopen
      obtain ⟨hdown, htimer⟩ := hready hopen
      simp only [Bool.false_eq_true, if_false, wpi_seq, wpi_at, wpi_modify]
      intro hloads
      refine (wpi_yield _).mpr ⟨_, .of_phase hopen hnone (hsynced.opens hdown htimer hloads),
        fun f g w h => ?_⟩
      have hsubscribed : Inv J ({.phase .watching} + f) g w.subscribe :=
        h.step (subscribe_closed w).1 (subscribe_closed w).2 Synced.subscribes
      refine wpi_mono (wpi_events hsubscribed) ?_
      rintro _ f g w ⟨h, hover⟩
      change wpi (syncing J) (if w.snap.closed = true then pure () else _)
        (Gives (syncing J) Clean) f g w
      cases hopen : w.snap.closed with
      | true => exact ⟨0, h.closed hopen _, rfl⟩
      | false =>
        simp only [Bool.false_eq_true, if_false, wpi_seq, wpi_modify]
        have hpausing : Inv J ({.phase .pausing} + f) g ((if w.stream = .closed true then
            w.onSnap fun s => s.reportError .watch .stream none else w).onSnap
                Snapshot.startPolling) := by
          have hreported : Inv J ({.phase .watching} + f) g
              (w.onSnap fun s => s.reportError .watch .stream none) :=
              h.same ⟨rfl, rfl, rfl, rfl, id⟩
          split
          · exact hreported.pauses hopen (hover hopen)
          · exact h.pauses hopen (hover hopen)
        refine (wpi_yield _).mpr ⟨_, hpausing, fun f g w h => ?_⟩
        change wpi (syncing J) (if w.snap.closed = true then pure () else _)
          (Gives (syncing J) Clean) f g w
        cases hopen : w.snap.closed with
        | true => exact ⟨0, h.closed hopen _, rfl⟩
        | false =>
          obtain ⟨hnone, hsynced⟩ := h.phase hopen
          have hdown : w.stream.isClosed = true := hsynced.phase _ (Multiset.mem_singleton_self _)
          simp only [Bool.false_eq_true, if_false, wpi_seq, wpi_modify]
          exact ih (.of_phase hopen hnone (hsynced.polls hdown false (card_singleton _).le
            fun _ ha => Multiset.mem_singleton.mp ha)) fun _ => ⟨hdown, rfl⟩

theorem triple_runInitialLoad (C : Options) :
    Triple (syncing J) {.phase .loading} (runInitialLoad J C n) Clean := by
  intro f g w h
  have hdown : w.snap.closed = false → w.stream.isClosed = true := fun hopen =>
    ((h.phase hopen).2.phase _ (Multiset.mem_singleton_self _)).1
  simp only [runInitialLoad, wpi_seq, wpi_gets, wpi_modify]
  refine wpi_mono (wpi_loadReported h hdown) ?_
  rintro _ f g w ⟨_, h, rfl⟩
  have hready : Inv J ({.phase .loading} + f) g (w.onSnap fun s => { s with isReady := true }) :=
    h.same ⟨rfl, rfl, rfl, rfl, id⟩
  generalize (w.onSnap fun s => { s with isReady := true }) = w at hready
  cases hopen : w.snap.closed with
  | true => exact ⟨0, hready.closed hopen _, rfl⟩
  | false =>
    obtain ⟨hnone, hsynced⟩ := hready.phase hopen
    have hfits := hsynced.phase _ (Multiset.mem_singleton_self _)
    cases hwatch : C.watch with
    | true => exact wpi_runWatch hready fun _ => hfits
    | false =>
      refine ⟨0, ?_, rfl⟩
      have hpauses := hready.pauses hopen hfits.1
      refine hpauses.imp_right (And.imp_right fun _ => ?_)
      rw [zero_add, hnone]
      exact hsynced.starts hopen hfits.1 (card_zero.trans_le (Nat.zero_le 1)) (by simp)

/-! ### What else happens -/

def Outside.Valid (J : JsonText) : Outside → Prop
  | .set _ value _ => Snapshots.Valid J value
  | .delete .. | .disconnect _ | .tick | .close => True

theorem mutate_closed (w : World) (name : String) (value : Option Bytes) (skip : ℕ) :
    (w.mutate name value skip).snap.closed = w.snap.closed
      ∧ (w.mutate name value skip).stream.isClosed = w.stream.isClosed := by
  unfold World.mutate
  split
  · exact ⟨rfl, rfl⟩
  · exact ⟨rfl, Stream.isClosed_push _ _⟩

theorem triple_mutate (name : String) {value : Option Bytes}
    (hvalid : ∀ raw, value = some raw → Valid J raw) (skip : ℕ) :
    Triple (syncing J) 0 (Prog.modify fun w => w.mutate name value skip) Clean := by
  intro f g w h
  obtain ⟨hclosed, hstream⟩ := mutate_closed w name value skip
  exact ⟨0, h.step hclosed hstream.trans fun h => h.mutate hvalid skip, rfl⟩

theorem triple_outside {o : Outside} (hvalid : o.Valid J) :
    Triple (syncing J) 0 (o.task J B n) Clean := by
  cases o with
  | set name value skip =>
    exact triple_mutate name (fun raw hraw => Option.some.inj hraw ▸ hvalid) skip
  | delete name skip => exact triple_mutate name (fun _ hraw => by cases hraw) skip
  | disconnect error =>
    intro f g w h
    refine ⟨0, h, trivial, fun f g w h hlive htellable => ⟨0, ?_, rfl⟩⟩
    exact h.imp (fun ⟨hclosed, _⟩ => ⟨hclosed, rfl⟩) fun ⟨hopen, hsynced⟩ =>
      ⟨hopen, hsynced.breaks hlive htellable error⟩
  | tick =>
    intro f g w h
    refine ⟨0, h, trivial, fun f g w h htimer => ?_⟩
    refine wpi_loadReported h fun hopen => ?_
    rcases h with ⟨hclosed, -⟩ | ⟨-, hsynced⟩
    · rw [hopen] at hclosed
      cases hclosed
    · exact hsynced.timer htimer
  | close =>
    intro f g w h
    refine ⟨0, .inl ?_, rfl⟩
    change w.close.snap.closed = true ∧ w.close.stream.isClosed = true
    unfold World.close
    split
    case isTrue hclosed =>
      refine h.resolve_right fun ⟨hopen, _⟩ => ?_
      rw [hopen] at hclosed
      cases hclosed
    case isFalse => exact ⟨rfl, rfl⟩

end tasks

/-- As long as no load reads what has been written since the loads under way began, or fails after
it has read something, and no watch is opened while a load is under way, or breaks off with events
left that are older than the highest revision: whenever the watch has nothing more to tell, the
snapshot has what the store has. -/
theorem snapshot_converges (J : JsonText) (C : Options) (n : ℕ) {env : List Outside}
    (hwritten : ∀ o ∈ env, o.Valid J)
    {s₀ : FlagStore} (hstored : ∀ m ∈ s₀.log, m.Valid J) {w : Pool World Mark Flight}
    (hrun : Runs careful (.of (tasks J C n env) ⟨0, 0⟩ (World.start s₀)) w)
    (hidle : w.state.stream = .live [])
    (name : String) :
    w.state.snap.get name
      = w.state.store.records[name]?.bind fun entry =>
      (decodeFlagDef J entry.value).toOption.join := by
  obtain ⟨M, hinv, -⟩ :=
    Runs.inv_owning (Γ := syncing J) hrun ({.phase .loading} :: env.map fun _ => 0)
    (by
      have hsum : (({.phase .loading} : Multiset Token) :: env.map fun _ => 0).sum
        = {.phase .loading} := by simp
      rw [hsum, ← add_zero ({.phase .loading} : Multiset Token)]
      exact .of_phase rfl rfl (synced_start hstored))
    (.cons (triple_runInitialLoad C) (forall₂_map_left_iff.mpr (forall₂_map_right_iff.mpr
      (forall₂_same.mpr fun o ho => triple_outside (hwritten o ho)))))
  rcases hinv with ⟨-, hclosed⟩ | ⟨-, hsynced⟩
  · rw [hidle] at hclosed
    cases hclosed
  · exact hsynced.converged hidle name

instance (revision : ℕ) : DecidablePred (WatchEvent.After revision)
  | .ready => isTrue trivial
  | .changed m => inferInstanceAs (Decidable (revision < m.revision))

instance (revision : ℕ) : DecidablePred (Stream.Tellable revision)
  | .live pending => inferInstanceAs (Decidable (∀ e ∈ pending, e.After revision))
  | .closed _ | .opening _ => isTrue trivial

instance (l : Mark) (g : Flight) (w : World) : Decidable (careful.allows l g w) :=
  match l with
  | .reads revision => inferInstanceAs (Decidable (0 < revision ∧ revision ≤ g.horizon))
  | .fails seen => inferInstanceAs (Decidable (seen = []))
  | .opens => inferInstanceAs (Decidable (g.loads = 0))
  | .breaks => inferInstanceAs (Decidable (w.stream.Tellable w.snap.lastRevision))
  | .begins | .ends => isTrue trivial

/-- Whatever the text, the flag is on. -/
def allOn : JsonText := ⟨fun _ => "on", fun _ => .ok (.obj [("on", .bool true)]), fun _ => ""⟩

theorem valid_allOn (raw : Bytes) : Valid allOn raw :=
  ⟨.obj [("on", .bool true)], by simp [decodeFlagDef, allOn]⟩

/-- Two flags, and pages of one flag each. -/
def twoFlags : FlagStore :=
  (FlagStore.mutate ⟨[], 0, 0, fun _ => none, 1, .nil, nofun⟩ "a" (some [1]) 0).mutate
    "b" (some [1]) 0

/-- Tasks on the store `twoFlags`, resumed in the order given. -/
def runSnapshot (D : Discipline World Mark Flight) [∀ l g w, Decidable (D.allows l g w)]
    (env : List Outside)
    (turns : List ℕ) : Option (Pool World Mark Flight) :=
  schedule D (turns.map (·, []))
    (.of (tasks allOn ⟨.http, true⟩ 4 env) ⟨0, 0⟩ (World.start twoFlags))

/-- A third flag is written after the watch has been opened. -/
theorem snapshot_converges_watching :
    ∃ w,
      Runs careful
      (.of (tasks allOn ⟨.http, true⟩ 4 [.set "c" [2] 0]) ⟨0, 0⟩ (World.start twoFlags)) w
      ∧ w.state.stream = .live [] ∧ w.state.snap.raws "c" = some [2]
      ∧ ∀ name, w.state.snap.get name
        = w.state.store.records[name]?.bind fun entry =>
        (decodeFlagDef allOn entry.value).toOption.join := by
  have hview : (runSnapshot careful [.set "c" [2] 0] (List.replicate 15 0 ++ [1, 0])).map
      (fun w => (w.state.stream, w.state.snap.raws "c")) = some (.live [], some [2]) :=
      by decide +kernel
  obtain ⟨w, hw, hstate⟩ := Option.map_eq_some_iff.mp hview
  obtain ⟨hidle, htold⟩ := Prod.ext_iff.mp hstate
  have hrun := runs_of_schedule .start hw
  have hwritten : ∀ o ∈ [Outside.set "c" [2] 0], o.Valid allOn := by
    intro o ho
    rw [List.mem_singleton.mp ho]
    exact valid_allOn _
  exact ⟨w, hrun, hidle, htold,
    snapshot_converges allOn ⟨.http, true⟩ 4 hwritten (fun m _ raw _ => valid_allOn raw) hrun hidle⟩

/-- The flag `a` is deleted after the load has read it, and `b` is written before the load reads it.
The watch is opened after the revision of `b` and does not tell of `a`: nothing is pending, no
load is under way, and the snapshot has a flag that is gone. -/
theorem deleted_flag_stays :
    (runSnapshot (.record Flight.note) [.delete "a" 0, .set "b" [2] 0]
        ([0, 0, 0, 0, 0, 0, 1, 2] ++ List.replicate 9 0)).map
      (fun w => (w.state.stream, w.ghost.loads, w.state.snap.raws "a", w.state.store.raws "a"))
      = some (.live [], 0, some [1], none) := by
  decide +kernel

end BeyondKv.Sdk.Snapshots
