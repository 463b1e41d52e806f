/-
# The preferences of a user

`setUserPref` and `resetUserPref` read the bundle of a user, change one flag in a copy and write
the copy back: with a compare-and-swap if there was a bundle, with a set-if-absent if there was
none. Only if nothing is left in the copy the bundle is deleted, and then whatever it has become
meanwhile. A set that another call has made in between is gone with it.

`prefs_linear` is about runs in which no call deletes a flag that is not its own; there the calls
take effect one at a time, in an order that agrees with real time. It also leaves out the flag
`__proto__`, which cannot be set by an assignment.
-/
import BeyondKv.Lib.Roll
import BeyondKv.Sdk.Kv

namespace BeyondKv.Sdk.Flags

open Async List
open Std (ExtTreeMap)

/-! ## The calls -/

/-- The flags of a user. -/
abbrev Prefs (J : Type) := ExtTreeMap String J

inductive Update (J : Type) where
  | set (name : String) (value : J)
  | reset (name : String)

inductive PrefError where
  | kv (e : KvError)
  /-- `failed to update prefs`, after all attempts. -/
  | contention
  deriving DecidableEq

inductive PrefMark (J : Type) where
  | began
  /-- The update has been made, to these preferences. -/
  | wrote (u : Update J) (before : Prefs J)
  /-- These preferences have been deleted. -/
  | deleted (u : Update J) (before : Prefs J)
  | returned (r : Except PrefError Unit)

section calls
variable {J : Type}

/-- `prefs[name] = value`. An object that has no property `__proto__` of its own has an accessor
of that name, and gets none. -/
def assign (prefs : Prefs J) (name : String) (value : J) : Prefs J :=
  if name = "__proto__" ∧ prefs[name]? = none then prefs else prefs.insert name value

/-- The mutator of a call. -/
def Update.mutator : Update J → Prefs J → Prefs J
  | .set name value, prefs => assign prefs name value
  | .reset name, prefs => prefs.erase name

/-- The bundle that is stored. -/
def bundle (key : String) (s : Kv (Prefs J)) : Prefs J := ((s.records key).map Stored.value).getD ∅

/-- Write the copy back. -/
def writeBack (key : String) (u : Update J) (next : Prefs J) :
    Option (Stored (Prefs J)) → Prog (Kv (Prefs J)) (PrefMark J) (Except KvError Unit)
  | some r => do
    match ← (request (Kv.cas key next r.revision) fun _ => some (.wrote u r.value)).run with
    | .ok _ => return .ok ()
    | .error e => return .error e
  | none => (request (Kv.setIfAbsent key next) fun _ => some (.wrote u ∅)).run

/-- Nothing is left, and nothing was there: the call is done as soon as it has read that. -/
def Update.idle (u : Update J) : Option (Stored (Prefs J)) → Option (PrefMark J)
  | none => if (u.mutator ∅).isEmpty then some (.wrote u ∅) else none
  | some _ => none

/-- The attempts of `mutateUserPrefs` that are left. -/
def attempts (key : String) (u : Update J) :
    ℕ → Prog (Kv (Prefs J)) (PrefMark J) (Except PrefError Unit)
  | 0 => return .error .contention
  | left + 1 => do
    match ← (request (Kv.get key) u.idle).run with
    | .error e => return .error (.kv e)
    | .ok entry =>
      let next := u.mutator ((entry.map Stored.value).getD ∅)
      if next.isEmpty then
        match entry with
        | none => return .ok ()
        | some _ =>
          match ← (request (Kv.delete key) fun old =>
            some (.deleted u ((old.map Stored.value).getD ∅))).run with
          | .ok _ => return .ok ()
          | .error e => return .error (.kv e)
      else
        match ← writeBack key u next entry with
        | .ok _ => return .ok ()
        | .error e => if e.status = 409 then attempts key u left else return .error (.kv e)

def mutateUserPrefs (key : String) (u : Update J) :
    Prog (Kv (Prefs J)) (PrefMark J) (Except PrefError Unit) :=
  attempts key u 10

def prefTask (key : String) (u : Update J) : Prog (Kv (Prefs J)) (PrefMark J) Unit := do
  Prog.at_ .began
  let r ← mutateUserPrefs key u
  Prog.at_ (.returned r)

def prefTasks (key : String) (calls : List (Update J)) :
    List (Prog (Kv (Prefs J)) (ℕ × PrefMark J) Unit) :=
  numbered (calls.map (prefTask key))

abbrev PrefTrace (J : Type) := List (ℕ × PrefMark J)

/-- What has happened, newest first. -/
abbrev prefTrace (J : Type) : Discipline (Kv (Prefs J)) (ℕ × PrefMark J) (PrefTrace J) :=
  .record fun l _ g => l :: g

/-! ## What is asked of the steps -/

/-- A delete takes no flag with it that is not the call's own, and no `__proto__` is set that is
not there already. -/
def PrefMark.Spares : PrefMark J → Prop
  | .wrote (.set name _) before => name ≠ "__proto__" ∨ before[name]? ≠ none
  | .deleted (.set _ _) _ => False
  | .deleted (.reset name) before => before.erase name = ∅
  | _ => True

/-- The runs whose steps all do so. -/
def sparing (J : Type) : Discipline (Kv (Prefs J)) (ℕ × PrefMark J) (PrefTrace J) :=
  ⟨fun l _ g => l :: g, fun l _ _ => l.2.Spares⟩

/-- What a set or a reset is for. -/
def Update.apply : Update J → Prefs J → Prefs J
  | .set name value, prefs => prefs.insert name value
  | .reset name, prefs => prefs.erase name

/-- What becomes of one flag. -/
def Update.outcome (name : String) (u : Update J) (x : Option J) : Option J :=
  match u with
  | .set n v => if n = name then some v else x
  | .reset n => if n = name then none else x

def PrefMark.update? : PrefMark J → Option (Update J)
  | .wrote u _ | .deleted u _ => some u
  | _ => none

def PrefMark.commits (l : PrefMark J) : Bool := l.update?.isSome

/-- The updates of a trace, newest first. -/
def updates (g : PrefTrace J) : List (Update J) := g.filterMap fun l => l.2.update?

theorem Update.getElem?_apply (name : String) (u : Update J) (prefs : Prefs J) :
    (u.apply prefs)[name]? = u.outcome name prefs[name]? := by
  cases u with
  | set n v =>
    simp only [Update.apply, Update.outcome, ExtTreeMap.getElem?_insert, Std.compare_eq_iff_eq]
  | reset n =>
    simp only [Update.apply, Update.outcome, ExtTreeMap.getElem?_erase, Std.compare_eq_iff_eq]

theorem getElem?_foldr_apply (name : String) (us : List (Update J)) (prefs : Prefs J) :
    (us.foldr Update.apply prefs)[name]? = us.foldr (Update.outcome name) prefs[name]? := by
  induction us with
  | nil => rfl
  | cons u us ih => rw [foldr_cons, foldr_cons, Update.getElem?_apply, ih]

/-- A write that is allowed does what it is for. -/
theorem mutator_of_spares {u : Update J} {before : Prefs J} (h : (PrefMark.wrote u before).Spares) :
    u.mutator before = u.apply before := by
  cases u with
  | set name value =>
    have hne : ¬ (name = "__proto__" ∧ before[name]? = none) := fun ⟨hname, hnone⟩ =>
      h.elim (fun hn => hn hname) fun hs => hs hnone
    exact if_neg hne
  | reset name => rfl

/-- So does a delete. -/
theorem empty_of_spares {u : Update J} {before : Prefs J} (h : (PrefMark.deleted u before).Spares) :
    (∅ : Prefs J) = u.apply before := by
  cases u with
  | set name value => exact h.elim
  | reset name => exact h.symm

end calls

/-! ## The invariant -/

/-- The marks of a call, newest first, from its start to its end. -/
inductive Course {J : Type} (u : Update J) : List (PrefMark J) → Prop
  | idle : Course u []
  | began : Course u [.began]
  | committed {c : PrefMark J} (hc : c.update? = some u) : Course u [c, .began]
  | succeeded {c : PrefMark J} (hc : c.update? = some u) : Course u [.returned (.ok ()), c, .began]
  | failed (e : PrefError) : Course u [.returned (.error e), .began]

/-- Where a call is: the marks it has set, and the bundle it has read. -/
structure Standing (J : Type) where
  did : List (PrefMark J)
  read : Option (Stored (Prefs J))

section invariant
variable {J : Type} (key : String) (calls : List (Update J)) (B₀ : Prefs J)

/-- The bundle is what the updates so far have made of `B₀`. -/
structure Kept (M : Multiset (ℕ × Standing J)) (g : PrefTrace J) (s : Kv (Prefs J)) : Prop where
  roll : Roll Standing.did M g
  course : ∀ i, marksOf i g = [] ∨ ∃ u, calls[i]? = some u ∧ Course u (marksOf i g)
  bundle : bundle key s = (updates g).foldr Update.apply B₀
  dated : s.Dated key
  read : ∀ x ∈ M, ∀ r ∈ x.2.read, s.Read key r
  answers : s.Answers

abbrev keeping : Regime (Kv (Prefs J)) (ℕ × PrefMark J) (PrefTrace J) (ℕ × Standing J) :=
  .plain (sparing J) (Kept key calls B₀)

/-- The terms as the call `i` sees them. -/
abbrev keepingBy (i : ℕ) : Regime (Kv (Prefs J)) (PrefMark J) (PrefTrace J) (ℕ × Standing J) :=
  (keeping key calls B₀).via (Prod.mk i)

variable {key calls B₀} {f : Multiset (ℕ × Standing J)} {g : PrefTrace J}
  {s s' : Kv (Prefs J)} {i : ℕ}
  {u : Update J} {a : Standing J} {l : PrefMark J}

theorem Kept.others (h : Kept key calls B₀ ({(i, a)} + f) g s) {x : ℕ × Standing J} (hx : x ∈ f) :
    ∀ r ∈ x.2.read, s.Read key r :=
  h.read x (Multiset.mem_add.mpr (.inr hx))

/-- Reads of the call itself do not matter, once it gives up its own. -/
theorem Kept.reads {b : Standing J} (h : Kept key calls B₀ ({(i, a)} + f) g s)
    (hb : ∀ r ∈ b.read, s.Read key r) :
    ∀ x ∈ ({(i, b)} + f : Multiset (ℕ × Standing J)), ∀ r ∈ x.2.read, s.Read key r := by
  intro x hx
  rcases Multiset.mem_add.mp hx with hx | hx
  · rw [Multiset.mem_singleton.mp hx]
    exact hb
  · exact h.others hx

/-- The number of requests does not matter. -/
theorem Kept.counted {M : Multiset (ℕ × Standing J)} (h : Kept key calls B₀ M g s) (n : ℕ) :
    Kept key calls B₀ M g { s with requests := n } :=
  ⟨h.roll, h.course, h.bundle, h.dated, h.read, h.answers⟩

/-- The call remembers, or forgets, what it has read. -/
theorem Kept.recall (h : Kept key calls B₀ ({(i, a)} + f) g s) {r : Option (Stored (Prefs J))}
    (hr : ∀ x ∈ r, s.Read key x) : Kept key calls B₀ ({(i, ⟨a.did, r⟩)} + f) g s :=
  ⟨h.roll.keep rfl, h.course, h.bundle, h.dated, h.reads hr, h.answers⟩

/-- The course of the others goes on as it was. -/
theorem Kept.course_mark (h : Kept key calls B₀ ({(i, a)} + f) g s) (hi : calls[i]? = some u)
    (hc : Course u (l :: a.did)) (j : ℕ) :
    marksOf j ((i, l) :: g) = [] ∨ ∃ u, calls[j]? = some u
        ∧ Course u (marksOf j ((i, l) :: g)) := by
  by_cases hj : i = j
  · subst hj
    rw [marksOf_self, h.roll.own]
    exact .inr ⟨u, hi, hc⟩
  · rw [marksOf_other hj]
    exact h.course j

/-- A mark that is no commit. -/
theorem Kept.mark (h : Kept key calls B₀ ({(i, a)} + f) g s) (hi : calls[i]? = some u)
    (hc : Course u (l :: a.did)) (hl : l.update? = none) :
    Kept key calls B₀ ({(i, ⟨l :: a.did, none⟩)} + f) ((i, l) :: g) s := by
  refine ⟨h.roll.mark rfl, h.course_mark hi hc, ?_, h.dated, h.reads nofun, h.answers⟩
  have hsame : updates ((i, l) :: g) = updates g := by simp [updates, hl]
  rw [hsame]
  exact h.bundle

/-- A commit: the store has changed as the update says. -/
theorem Kept.commit (h : Kept key calls B₀ ({(i, a)} + f) g s) (hi : calls[i]? = some u)
    (hdid : a.did = [.began])
    (hl : l.update? = some u) (hbundle : Flags.bundle key s' = u.apply (Flags.bundle key s))
    (hdated : s'.Dated key)
    (hread : ∀ r, s.Read key r → s'.Read key r) (hanswers : s'.Answers) :
    Kept key calls B₀ ({(i, ⟨[l, .began], none⟩)} + f) ((i, l) :: g) s' := by
  refine ⟨h.roll.mark (by rw [hdid]), h.course_mark hi (hdid ▸ .committed hl), ?_,
    hdated, ?_, hanswers⟩
  · have hcons : updates ((i, l) :: g) = u :: updates g := by simp [updates, hl]
    rw [hcons, foldr_cons, ← h.bundle]
    exact hbundle
  · intro x hx r hr
    rcases Multiset.mem_add.mp hx with hx | hx
    · rw [Multiset.mem_singleton.mp hx] at hr
      cases hr
    · exact hread r (h.others hx r hr)

theorem Kept.end (h : Kept key calls B₀ ({(i, a)} + f) g s) : Kept key calls B₀ f g s :=
  ⟨h.roll.others, h.course, h.bundle, h.dated, fun _ hx => h.others hx, h.answers⟩

/-! ## Triples -/

/-- The outcome of a request that commits, or does nothing. -/
def Wrote {β : Type} (u : Update J) (i : ℕ) (r : Except KvError β)
    (own : Multiset (ℕ × Standing J)) : Prop :=
  (∃ e, r = .error e ∧ own = {(i, ⟨[.began], none⟩)})
    ∨ ∃ b c, r = .ok b ∧ c.update? = some u ∧ own = {(i, ⟨[c, .began], none⟩)}

theorem bundle_put {value : Prefs J} : Flags.bundle key (s.put key value none) = value := by
  rw [Flags.bundle, Kv.records_put]
  rfl

theorem bundle_of_some {r : Stored (Prefs J)} (h : s.records key = some r) :
    Flags.bundle key s = r.value := by
  rw [Flags.bundle, h]
  rfl

theorem bundle_of_none (h : s.records key = none) : Flags.bundle key s = ∅ := by
  rw [Flags.bundle, h]
  rfl

/-- A request that is refused leaves everything as it was. -/
theorem Kept.refused {r : Option (Stored (Prefs J))}
    (h : Kept key calls B₀ ({(i, ⟨[.began], r⟩)} + f) g s) (n : ℕ) :
    Kept key calls B₀ ({(i, ⟨[.began], none⟩)} + f) g { s with requests := n } :=
  (h.recall (r := none) nofun).counted n

/-- A read: the call remembers the entry, or it is done. -/
theorem triple_read (hi : calls[i]? = some u) :
    Triple (keepingBy key calls B₀ i) {(i, ⟨[.began], none⟩)}
      (request (Kv.get key) u.idle).run fun r own =>
      (∃ e, r = .error e ∧ own = {(i, ⟨[.began], none⟩)})
        ∨ ∃ entry, r = .ok entry ∧ own = {(i, ⟨(u.idle entry).toList ++ [.began], entry⟩)} := by
  refine triple_answered (fun f g s h => h.answers)
    (fun f g s e h => ⟨_, h.refused _, .inl ⟨e, rfl, rfl⟩⟩) ?_
  intro f g s h s' hallow
  refine ⟨_, ?_, .inr ⟨_, rfl, rfl⟩⟩
  have hmark : (Kv.get key s).1.toOption.bind u.idle = u.idle (s.records key) := rfl
  rw [hmark] at hallow ⊢
  cases hidle : u.idle (s.records key) with
  | none => exact (h.recall fun r hr => h.dated.read hr).counted _
  | some l =>
    cases hrec : s.records key with
    | some r =>
      rw [hrec] at hidle
      cases hidle
    | none =>
      rw [hrec] at hidle
      simp only [Update.idle] at hidle
      split at hidle
      · rename_i hempty
        cases hidle
        have hspares : (PrefMark.wrote u ∅).Spares := hallow _ (by rw [hrec]; exact if_pos hempty)
        have hnone : (∅ : Prefs J) = u.apply ∅ := by
          rw [← mutator_of_spares hspares]
          exact (ExtTreeMap.isEmpty_iff.mp hempty).symm
        refine (h.commit hi rfl rfl ?_ h.dated (fun _ hr => hr) h.answers).counted _
        rw [bundle_of_none hrec]
        exact hnone
      · cases hidle

theorem triple_delete (hi : calls[i]? = some u) {r : Option (Stored (Prefs J))} :
    Triple (keepingBy key calls B₀ i) {(i, ⟨[.began], r⟩)}
      (request (Kv.delete key) fun old => some (.deleted u ((old.map Stored.value).getD ∅))).run
      (Wrote u i) := by
  refine triple_answered (fun f g s h => h.answers)
    (fun f g s e h => ⟨_, h.refused _, .inl ⟨e, rfl, rfl⟩⟩) ?_
  intro f g s h s' hallow
  refine ⟨_, ?_, .inr ⟨_, .deleted u (Flags.bundle key s), rfl, rfl, rfl⟩⟩
  have hspares := empty_of_spares (hallow _ rfl)
  refine (h.commit hi rfl rfl ?_ Kv.Dated.delete (fun _ hr => hr.delete) h.answers).counted _
  rw [bundle_of_none Kv.records_delete]
  exact hspares

/-- A compare-and-swap writes only over the entry that was read. -/
theorem triple_cas (hi : calls[i]? = some u) {r : Stored (Prefs J)} :
    Triple (keepingBy key calls B₀ i) {(i, ⟨[.began], some r⟩)}
      (request (Kv.cas key (u.mutator r.value) r.revision) fun _ => some (.wrote u r.value)).run
      (Wrote u i) := by
  refine triple_answered (fun f g s h => h.answers)
    (fun f g s e h => ⟨_, h.refused _, .inl ⟨e, rfl, rfl⟩⟩) ?_
  intro f g s h s' hallow
  have hconflict : ∀ e, Kv.cas key (u.mutator r.value) r.revision s = (.error e, s) →
      Kept key calls B₀ ({(i, ⟨[.began], none⟩)} + f) g s' := by
    intro e he
    have hs : s' = { s with requests := s.requests + 1 } := by simp only [s', he]
    rw [hs]
    exact h.refused _
  cases hrec : s.records key with
  | none =>
    have hop : Kv.cas key (u.mutator r.value) r.revision s = (.error ⟨409⟩, s) :=
      by simp [Kv.cas, hrec]
    rw [hop]
    exact ⟨_, hconflict _ hop, .inl ⟨_, rfl, rfl⟩⟩
  | some r' =>
    by_cases hrev : r'.revision = r.revision
    · have hop : Kv.cas key (u.mutator r.value) r.revision s
          = (.ok (s.revision + 1), s.put key (u.mutator r.value) none) :=
          by simp [Kv.cas, hrec, hrev]
      have hs : s' = { s.put key (u.mutator r.value) none with requests := s.requests + 1 } :=
        by simp only [s', hop]
      rw [hop] at hallow ⊢
      rw [hs] at hallow ⊢
      refine ⟨_, ?_, .inr ⟨_, .wrote u r.value, rfl, rfl, rfl⟩⟩
      have hsame : r'.value = r.value := (h.read (i, ⟨[.began], some r⟩)
        (Multiset.mem_add.mpr (.inl (Multiset.mem_singleton_self _))) r rfl).2 r' hrec hrev
      refine (h.commit hi rfl rfl ?_ Kv.Dated.put (fun _ hr => hr.put) h.answers).counted _
      rw [bundle_put, bundle_of_some hrec, hsame]
      exact mutator_of_spares (hallow _ rfl)
    · have hop : Kv.cas key (u.mutator r.value) r.revision s = (.error ⟨409⟩, s) :=
        by simp [Kv.cas, hrec, hrev]
      rw [hop]
      exact ⟨_, hconflict _ hop, .inl ⟨_, rfl, rfl⟩⟩

theorem triple_setIfAbsent (hi : calls[i]? = some u) :
    Triple (keepingBy key calls B₀ i) {(i, ⟨[.began], none⟩)}
      (request (Kv.setIfAbsent key (u.mutator ∅)) fun _ => some (.wrote u ∅)).run (Wrote u i) := by
  refine triple_answered (fun f g s h => h.answers)
    (fun f g s e h => ⟨_, h.refused _, .inl ⟨e, rfl, rfl⟩⟩) ?_
  intro f g s h s' hallow
  cases hrec : s.records key with
  | none =>
    have hop : Kv.setIfAbsent key (u.mutator ∅) s = (.ok (), s.put key (u.mutator ∅) none) := by
      simp [Kv.setIfAbsent, hrec]
    have hs : s' = { s.put key (u.mutator ∅) none with requests := s.requests + 1 } :=
      by simp only [s', hop]
    rw [hop] at hallow ⊢
    rw [hs] at hallow ⊢
    refine ⟨_, ?_, .inr ⟨_, .wrote u ∅, rfl, rfl, rfl⟩⟩
    refine (h.commit hi rfl rfl ?_ Kv.Dated.put (fun _ hr => hr.put) h.answers).counted _
    rw [bundle_put, bundle_of_none hrec]
    exact mutator_of_spares (hallow _ rfl)
  | some r' =>
    have hop : Kv.setIfAbsent key (u.mutator ∅) s = (.error ⟨409⟩, s) :=
      by simp [Kv.setIfAbsent, hrec]
    have hs : s' = { s with requests := s.requests + 1 } := by simp only [s', hop]
    rw [hop, hs]
    exact ⟨_, h.refused _, .inl ⟨_, rfl, rfl⟩⟩

theorem triple_writeBack (hi : calls[i]? = some u) (entry : Option (Stored (Prefs J))) :
    Triple (keepingBy key calls B₀ i) {(i, ⟨[.began], entry⟩)}
      (writeBack key u (u.mutator ((entry.map Stored.value).getD ∅)) entry) (Wrote u i) := by
  cases entry with
  | none => exact triple_setIfAbsent hi
  | some r =>
    refine Triple.seq (triple_cas hi) ?_
    rintro x _ (⟨e, rfl, rfl⟩ | ⟨b, c, rfl, hc, rfl⟩)
    · exact Triple.ret (.inl ⟨e, rfl, rfl⟩)
    · exact Triple.ret (.inr ⟨(), c, rfl, hc, rfl⟩)

/-- Where a call is when it returns `r`. -/
def Settled (u : Update J) (i : ℕ) (r : Except PrefError Unit) (own : Multiset (ℕ × Standing J)) :
    Prop :=
  ∃ a, own = {(i, a)} ∧ Course u (.returned r :: a.did)

theorem settled_error (e : PrefError) : Settled u i (.error e) {(i, ⟨[.began], none⟩)} :=
  ⟨_, rfl, .failed e⟩

theorem settled_ok {c : PrefMark J} (hc : c.update? = some u) :
    Settled u i (.ok ()) {(i, ⟨[c, .began], none⟩)} :=
  ⟨_, rfl, .succeeded hc⟩

theorem attempts_settle (hi : calls[i]? = some u) (left : ℕ) :
    Triple (keepingBy key calls B₀ i) {(i, ⟨[.began], none⟩)} (attempts key u left)
        (Settled u i) := by
  induction left with
  | zero => exact Triple.ret (settled_error .contention)
  | succ left ih =>
    refine Triple.seq (triple_read hi) ?_
    rintro x _ (⟨e, rfl, rfl⟩ | ⟨entry, rfl, rfl⟩)
    · exact Triple.ret (settled_error (.kv e))
    · simp only
      by_cases hempty : (u.mutator ((entry.map Stored.value).getD ∅)).isEmpty = true
      · simp only [hempty, if_true]
        cases entry with
        | none =>
          have hidle : u.idle none = some (.wrote u ∅) := if_pos hempty
          rw [hidle]
          exact Triple.ret (settled_ok rfl)
        | some r =>
          refine Triple.seq (triple_delete hi) ?_
          rintro y _ (⟨e, rfl, rfl⟩ | ⟨b, c, rfl, hc, rfl⟩)
          · exact Triple.ret (settled_error (.kv e))
          · exact Triple.ret (settled_ok hc)
      · simp only [hempty]
        have hidle : u.idle entry = none := by
          cases entry with
          | none => exact if_neg hempty
          | some r => rfl
        rw [hidle]
        refine Triple.seq (triple_writeBack hi entry) ?_
        rintro y _ (⟨e, rfl, rfl⟩ | ⟨b, c, rfl, hc, rfl⟩)
        · by_cases hstatus : e.status = 409
          · simp only [hstatus, if_true]
            exact ih
          · simp only [hstatus, if_false]
            exact Triple.ret (settled_error (.kv e))
        · exact Triple.ret (settled_ok hc)

theorem prefTask_clean (hi : calls[i]? = some u) :
    Triple (keepingBy key calls B₀ i) {(i, ⟨[], none⟩)} (prefTask key u) Clean := by
  have hbegin : Triple (keepingBy key calls B₀ i) {(i, ⟨[], none⟩)} (Prog.at_ .began)
      (Owning {(i, ⟨[.began], none⟩)}) :=
    fun f g s h _ => ⟨_, h.mark hi .began rfl, rfl⟩
  refine Triple.seq hbegin ?_
  rintro _ _ rfl
  refine Triple.seq (attempts_settle hi 10) ?_
  rintro r _ ⟨a, rfl, hcourse⟩ f g s h _
  exact ⟨0, by rw [zero_add]; exact (h.mark hi hcourse rfl).end, rfl⟩

end invariant

/-! ## Runs -/

section courses
variable {J : Type} {u : Update J} {ms xs ys : List (PrefMark J)}

@[simp] theorem commits_began : (PrefMark.began : PrefMark J).commits = false := rfl

@[simp] theorem commits_returned (r : Except PrefError Unit) :
    (PrefMark.returned r : PrefMark J).commits = false := rfl

/-- A call commits at most once. -/
theorem Course.countP_commits (h : Course u ms) : ms.countP PrefMark.commits ≤ 1 := by
  have hone : ∀ c : PrefMark J, [c].countP PrefMark.commits ≤ 1 := fun c => countP_le_length
  cases h with
  | idle => simp
  | began => simp
  | @committed c hc => simpa [countP_cons] using hone c
  | @succeeded c hc => simpa [countP_cons] using hone c
  | failed e => simp

theorem Course.update (h : Course u ms) {l : PrefMark J} (hl : l ∈ ms) {u' : Update J}
    (hu : l.update? = some u') :
    u' = u := by
  cases h with
  | idle => cases hl
  | began => simp [mem_singleton.mp hl, PrefMark.update?] at hu
  | committed hc =>
    rcases mem_pair.mp hl with rfl | rfl
    · exact Option.some.inj (hu.symm.trans hc)
    · cases hu
  | succeeded hc =>
    simp only [mem_cons, not_mem_nil, or_false] at hl
    rcases hl with rfl | rfl | rfl
    · cases hu
    · exact Option.some.inj (hu.symm.trans hc)
    · cases hu
  | failed e =>
    rcases mem_pair.mp hl with rfl | rfl
    · cases hu
    · cases hu

/-- It begins first. -/
theorem Course.before_began (h : Course u (xs ++ .began :: ys)) : ys = [] := by
  generalize hms : xs ++ .began :: ys = ms at h
  cases h with
  | idle => simp at hms
  | began => rcases xs with _ | ⟨x, _ | _⟩ <;> simp_all
  | committed hc =>
    rcases xs with _ | ⟨x, _ | ⟨y, _ | _⟩⟩ <;> simp_all
    rw [← hms.1] at hc
    cases hc
  | succeeded hc =>
    rcases xs with _ | ⟨x, _ | ⟨y, _ | ⟨z, _ | _⟩⟩⟩ <;> simp_all
    rw [← hms.2.1] at hc
    cases hc
  | failed e => rcases xs with _ | ⟨x, _ | ⟨y, _ | _⟩⟩ <;> simp_all

/-- It returns last. -/
theorem Course.after_returned {r : Except PrefError Unit} (h : Course u (xs ++ .returned r :: ys)) :
    xs = [] := by
  generalize hms : xs ++ .returned r :: ys = ms at h
  cases h with
  | idle => simp at hms
  | began => rcases xs with _ | ⟨x, _ | _⟩ <;> simp_all
  | committed hc =>
    rcases xs with _ | ⟨x, _ | ⟨y, _ | _⟩⟩ <;> simp_all
  | succeeded hc =>
    rcases xs with _ | ⟨x, _ | ⟨y, _ | ⟨z, _ | _⟩⟩⟩ <;> simp_all
    rw [← hms.2.1] at hc
    cases hc
  | failed e => rcases xs with _ | ⟨x, _ | ⟨y, _ | _⟩⟩ <;> simp_all

/-- It has committed if and only if it succeeds. -/
theorem Course.committed_iff {r : Except PrefError Unit} (h : Course u (.returned r :: ys)) :
    (∃ l ∈ (.returned r :: ys : List (PrefMark J)), l.commits = true) ↔ r = .ok () := by
  cases h with
  | succeeded hc =>
    refine iff_of_true ⟨_, mem_cons_of_mem _ (mem_cons_self ..), ?_⟩ rfl
    rw [PrefMark.commits, hc]
    rfl
  | failed e => simp
  | committed hc => cases hc

end courses

section runs
variable {J : Type} {key : String} {calls : List (Update J)} {s₀ : Kv (Prefs J)} {g : PrefTrace J}
  {w : Pool (Kv (Prefs J)) (ℕ × PrefMark J) (PrefTrace J)}

theorem prefs_kept (hdated : s₀.Dated key) (hanswers : s₀.Answers)
    (hrun : Runs (sparing J) (.of (prefTasks key calls) [] s₀) w) :
    ∃ M, Kept key calls (bundle key s₀) M w.ghost w.state := by
  have hstart : (Pool.of (prefTasks key calls) [] s₀).Ok (keeping key calls (bundle key s₀))
      (fun _ => (keeping key calls (bundle key s₀)).excuse)
      (List.range (calls.map (prefTask key)).length) := by
    refine Pool.ok_numbered (fun i => {(i, ⟨[], none⟩)}) ?_ fun i p hp => ?_
    · refine ⟨Roll.start (fun _ => rfl) _, fun i => .inl rfl, rfl, hdated, fun x hx => ?_, hanswers⟩
      rw [sum_singletons] at hx
      obtain ⟨i, -, rfl⟩ := mem_map.mp hx
      exact nofun
    · rw [getElem?_map, Option.map_eq_some_iff] at hp
      obtain ⟨u, hu, rfl⟩ := hp
      exact prefTask_clean hu
  obtain ⟨owns, -, -, hinv⟩ := Runs.ok (Γ := keeping key calls (bundle key s₀)) hrun hstart
  exact ⟨_, hinv⟩

/-- The calls that have committed, in the order in which they did. -/
def committed (g : PrefTrace J) : List ℕ := (tasksWith PrefMark.commits g).reverse

/-- The updates are those of the calls. -/
theorem updates_eq (h : ∀ l ∈ g, ∀ u, l.2.update? = some u → calls[l.1]? = some u) :
    updates g = (tasksWith PrefMark.commits g).filterMap (calls[·]?) := by
  induction g with
  | nil => rfl
  | cons l g ih =>
    have hrest := ih fun l hl => h l (mem_cons_of_mem _ hl)
    cases hl : l.2.update? with
    | none => simpa [updates, tasksWith, PrefMark.commits, hl] using hrest
    | some u =>
      have hu := h l (mem_cons_self ..) u hl
      simpa [updates, tasksWith, PrefMark.commits, hl, hu] using hrest

/-- Any number of calls for one user, interleaved in any way, in a run whose deletes take only the
call's own flag and which sets no `__proto__`. The calls that have committed are, of those that
have returned, the successful ones. They have done so in an order that agrees with real time: what
returned before another began is before it. And every flag is what the last set or reset of that
order has made of it. -/
theorem prefs_linear {J : Type} {key : String} {calls : List (Update J)} {s₀ : Kv (Prefs J)}
    {w : Pool (Kv (Prefs J)) (ℕ × PrefMark J) (PrefTrace J)} (hdated : s₀.Dated key)
    (hanswers : s₀.Answers)
    (hrun : Runs (sparing J) (.of (prefTasks key calls) [] s₀) w) :
    (committed w.ghost).Nodup
      ∧ (∀ i r, (i, .returned r) ∈ w.ghost → (i ∈ committed w.ghost ↔ r = .ok ()))
      ∧ (∀ i j r later between earlier, w.ghost = later ++ (j, .began) :: between
        ++ (i, .returned r) :: earlier →
        i ∈ committed w.ghost → j ∈ committed w.ghost → [i, j].Sublist (committed w.ghost))
      ∧ ∀ name, (bundle key w.state)[name]?
        = ((committed w.ghost).filterMap (calls[·]?)).foldl (fun x u => u.outcome name x)
        (bundle key s₀)[name]? := by
  obtain ⟨M, hkept⟩ := prefs_kept hdated hanswers hrun
  have hcourse : ∀ {i l}, l ∈ marksOf i w.ghost → ∃ u, calls[i]? = some u
      ∧ Course u (marksOf i w.ghost) := by
    intro i l hl
    refine (hkept.course i).resolve_left fun hnil => ?_
    rw [hnil] at hl
    cases hl
  refine ⟨?_, ?_, ?_, ?_⟩
  · refine nodup_reverse.mpr (nodup_tasksWith fun i => ?_)
    rcases hkept.course i with hnil | ⟨u, -, hc⟩
    · simp [hnil]
    · exact hc.countP_commits
  · intro i r hret
    obtain ⟨u, -, hc⟩ := hcourse (mem_marksOf.mpr hret)
    obtain ⟨xs, ys, hsplit⟩ := append_of_mem (mem_marksOf.mpr hret)
    rw [hsplit] at hc
    have hxs := hc.after_returned
    subst hxs
    rw [committed, mem_reverse, mem_tasksWith, hsplit]
    exact hc.committed_iff
  · intro i j r later between earlier hg hi hj
    rw [committed, mem_reverse, mem_tasksWith] at hi hj
    have hmarks : ∀ k, marksOf k w.ghost = marksOf k later ++ marksOf k ((j, .began) :: between)
        ++ marksOf k ((i, .returned r) :: earlier) := by
      intro k
      rw [hg, marksOf_append, marksOf_append]
    -- the commit of `i` is older than its return, that of `j` newer than its beginning
    have hearly : i ∈ tasksWith PrefMark.commits earlier := by
      obtain ⟨l, hl, hcommits⟩ := hi
      obtain ⟨u, -, hc⟩ := hcourse hl
      rw [hmarks i, marksOf_self] at hc hl
      rw [hc.after_returned, nil_append] at hl
      refine mem_tasksWith.mpr ⟨l, (mem_cons.mp hl).resolve_left ?_, hcommits⟩
      rintro rfl
      cases hcommits
    have hlate : j ∈ tasksWith PrefMark.commits later := by
      obtain ⟨l, hl, hcommits⟩ := hj
      obtain ⟨u, -, hc⟩ := hcourse hl
      rw [hmarks j, marksOf_self, append_assoc, cons_append] at hc hl
      rw [hc.before_began] at hl
      refine mem_tasksWith.mpr ⟨l, (mem_append.mp hl).resolve_right fun hl => ?_, hcommits⟩
      rw [mem_singleton.mp hl] at hcommits
      cases hcommits
    have hrest :
        i ∈ tasksWith PrefMark.commits ((j, .began) :: between ++ (i, .returned r) :: earlier) := by
      rw [tasksWith_append]
      refine mem_append_right _ ?_
      obtain ⟨l, hl, hcommits⟩ := mem_tasksWith.mp hearly
      exact mem_tasksWith.mpr ⟨l, by rw [marksOf_self]; exact mem_cons_of_mem _ hl, hcommits⟩
    have hsub := sublist_tasksWith hlate hrest
    rw [committed, hg, append_assoc]
    exact hsub.reverse
  · intro name
    have hupdates :
        updates w.ghost = (tasksWith PrefMark.commits w.ghost).filterMap (calls[·]?) := by
      refine updates_eq fun l hl u hu => ?_
      have hmem : l.2 ∈ marksOf l.1 w.ghost := mem_marksOf.mpr hl
      obtain ⟨u', hcall, hc⟩ := hcourse hmem
      rw [hc.update hmem hu]
      exact hcall
    rw [hkept.bundle, getElem?_foldr_apply, hupdates, committed, filterMap_reverse, foldl_reverse]

end runs

/-! ## Schedules -/

instance {J : Type} (l : PrefMark J) : Decidable l.Spares :=
  match l with
  | .wrote (.set name _) before =>
    inferInstanceAs (Decidable (name ≠ "__proto__" ∨ before[name]? ≠ none))
  | .deleted (.set _ _) _ => isFalse id
  | .deleted (.reset name) before =>
    decidable_of_iff ((before.erase name).isEmpty = true) ExtTreeMap.isEmpty_iff
  | .began | .wrote (.reset _) _ | .returned _ => isTrue trivial

instance {J : Type} (l : ℕ × PrefMark J) (g : PrefTrace J) (s : Kv (Prefs J)) :
    Decidable ((sparing J).allows l g s) :=
  inferInstanceAs (Decidable l.2.Spares)

/-- A user with one flag. -/
def oneFlag : Kv (Prefs ℕ) := Kv.empty.put "u" ((∅ : Prefs ℕ).insert "a" 1) none

def PrefMark.isDone : PrefMark V → Bool
  | .returned (.ok ()) => true
  | _ => false

/-- The call 0 reads, the call 1 runs to its end, and the call 0 goes on. -/
def overtaking : List (ℕ × List ℕ) := [0, 0, 1, 1, 1, 1, 1, 0, 0, 0].map (·, [])

theorem prefs_linear_overtaken :
    ∃ w, Runs (sparing ℕ) (.of (prefTasks "u" [.set "b" 2, .set "c" 3]) [] oneFlag) w
      ∧ (1, .returned (.ok ())) ∈ w.ghost ∧ 1 ∈ committed w.ghost := by
  have hview : (schedule (sparing ℕ) (overtaking.take 7)
      (.of (prefTasks "u" [.set "b" 2, .set "c" 3]) [] oneFlag)).map
        (fun w => w.ghost.any fun l => l.1 == 1 && l.2.isDone)
      = some true := by decide +kernel
  obtain ⟨w, hsome, hany⟩ := Option.map_eq_some_iff.mp hview
  have hrun := runs_of_schedule .start hsome
  have hret : (1, .returned (.ok ())) ∈ w.ghost := by
    obtain ⟨⟨i, l⟩, hmem, hl⟩ := any_eq_true.mp hany
    simp only [Bool.and_eq_true, beq_iff_eq] at hl
    obtain ⟨rfl, hl⟩ := hl
    unfold PrefMark.isDone at hl
    split at hl
    · exact hmem
    · cases hl
  have hdated : oneFlag.Dated "u" := Kv.Dated.put
  have hanswers : oneFlag.Answers := fun _ _ h => by cases h
  exact ⟨w, hrun, hret, ((prefs_linear hdated hanswers hrun).2.1 1 _ hret).mpr rfl⟩

/-- The call 0 resets the only flag there was when it looked, and deletes the one that the call 1
has set meanwhile. A flag `__proto__` is not set at all. -/
theorem set_undone :
    (schedule (prefTrace ℕ) overtaking
      (.of (prefTasks "u" [.reset "a", .set "b" 2]) [] oneFlag)).map (fun w =>
        (w.ghost.map fun l => (l.1, match l.2 with | .returned (.ok ()) => true | _ => false),
          (bundle "u" w.state)["b"]?))
      = some ([(0, true), (0, false), (1, true), (1, false), (1, false), (0, false)], none)
    ∧ (schedule (prefTrace ℕ) ([0, 0, 0, 0, 0].map (·, []))
      (.of (prefTasks "u" [.set "__proto__" 2]) [] oneFlag)).map
        (fun w => (w.ghost.map fun l => match l.2 with | .returned (.ok ()) => true | _ => false,
          (bundle "u" w.state)["__proto__"]?))
      = some ([true, false, false], none) := by
  refine ⟨?_, ?_⟩ <;> decide +kernel

end BeyondKv.Sdk.Flags
