/-
# Revisions of one process

`next_tstamp` is the only code that moves the revision counter: everything else is
`Stampless`. So whatever state a call starts in and however it ends, the revisions it
acknowledges rise from the counter before it to the counter after it
(`Call.rising`), as long as the counter and the clock stay away from the end of
`u64` (`Headroom`).
-/
import BeyondKv.Calls
import BeyondKv.Calm

namespace BeyondKv

open Async

/-- The revision counter and the clock. -/
def stamps (s : NsState) : UInt64 × (Nat → UInt64) := (s.lastTstamp, s.clock)

instance : BlindSync stamps where
  io _ _ _ _ _ := rfl
  refs _ _ _ := rfl
  files _ _ _ _ := rfl
  active _ _ _ := rfl

instance : BlindIndex stamps := ⟨fun _ _ => rfl⟩

instance : BlindStripes stamps := ⟨fun _ _ => rfl⟩

instance : BlindBlobs stamps := ⟨fun _ _ => rfl⟩

instance : BlindGate stamps := ⟨fun _ _ _ => rfl⟩

instance (k : Kind) : Has k fun _ : Point => True := ⟨fun _ _ => trivial⟩

/-- The revision counter and the clock are as they were. -/
abbrev Unstamped (s s' : NsState) : Prop := Same stamps s s'

theorem Unstamped.last {s s' : NsState} (h : Unstamped s s') : s'.lastTstamp = s.lastTstamp :=
  congrArg Prod.fst h

theorem Unstamped.clock {s s' : NsState} (h : Unstamped s s') : s'.clock = s.clock :=
  congrArg Prod.snd h

/-- No effect of the program touches the revision counter. -/
abbrev Stampless {α : Type} (p : Task α) : Prop := Calm (fun _ => True) stamps p

/-! ## Drawing revisions -/

/-- Revisions that rise from `lo`, do not pass `hi` and are not behind the clock. -/
structure Rising (clock : Nat → UInt64) (lo : UInt64) (ts : List UInt64) (hi : UInt64) : Prop where
  rise : (lo :: ts).Pairwise (· < ·)
  le : ∀ t ∈ lo :: ts, t ≤ hi
  read : ∀ t ∈ ts, ∃ n, clock n ≤ t

section rising
variable {clock : Nat → UInt64} {lo t mid hi : UInt64} {ts ts' : List UInt64}

theorem Rising.nil (h : lo ≤ hi) : Rising clock lo [] hi :=
  ⟨List.pairwise_singleton _ _, fun _ ht => List.mem_singleton.mp ht ▸ h,
    fun _ ht => absurd ht List.not_mem_nil⟩

theorem Rising.append (h : Rising clock lo ts mid) (h' : Rising clock mid ts' hi) :
    Rising clock lo (ts ++ ts') hi := by
  obtain ⟨habove, hrise'⟩ := List.pairwise_cons.mp h'.rise
  have hmid : mid ≤ hi := h'.le mid (List.mem_cons_self ..)
  refine ⟨?_, fun t ht => ?_, fun t ht => (List.mem_append.mp ht).elim (h.read t) (h'.read t)⟩
  · refine List.pairwise_append.mpr ⟨h.rise, hrise', fun a ha b hb => ?_⟩
    exact UInt64.lt_of_le_of_lt (h.le a ha) (habove b hb)
  · rcases List.mem_append.mp (show t ∈ (lo :: ts) ++ ts' from ht) with ht | ht
    · exact UInt64.le_trans (h.le t ht) hmid
    · exact h'.le t (List.mem_cons_of_mem _ ht)

theorem Rising.cons (h : lo < t) (hread : ∃ n, clock n ≤ t) (hts : Rising clock t ts hi) :
    Rising clock lo (t :: ts) hi := by
  have hall : ∀ u ∈ t :: ts, lo < u := by
    intro u hu
    rcases List.mem_cons.mp hu with rfl | hu
    · exact h
    · exact UInt64.lt_trans h ((List.pairwise_cons.mp hts.rise).1 u hu)
  refine ⟨List.pairwise_cons.mpr ⟨hall, hts.rise⟩, fun u hu => ?_, fun u hu => ?_⟩
  · rcases List.mem_cons.mp hu with rfl | hu
    · exact UInt64.le_trans (UInt64.le_of_lt h) (hts.le t (List.mem_cons_self ..))
    · exact hts.le u hu
  · rcases List.mem_cons.mp hu with rfl | hu
    · exact hread
    · exact hts.read u hu

end rising

/-- The counter and every reading of the clock can be passed `n` times. -/
def Headroom (n : Nat) (s : NsState) : Prop :=
  s.lastTstamp.toNat + n < 2 ^ 64 ∧ ∀ m, (s.clock m).toNat + n < 2 ^ 64

theorem Headroom.mono {m n : Nat} {s : NsState} (h : Headroom n s) (hm : m ≤ n) : Headroom m s :=
  ⟨Nat.lt_of_le_of_lt (Nat.add_le_add_left hm _) h.1,
    fun t => Nat.lt_of_le_of_lt (Nat.add_le_add_left hm _) (h.2 t)⟩

theorem Headroom.unstamped {n : Nat} {s s' : NsState} (h : Headroom n s) (hu : Unstamped s s') :
    Headroom n s' := by
  rw [Headroom, hu.last, hu.clock]
  exact h

/-- The revisions a result carries: none with an error. -/
def revsOf {α : Type} (f : α → List UInt64) : Except EngineError α → List UInt64
  | .ok a => f a
  | .error _ => []

/-- Left alone, the program draws at most `n` revisions, of which it returns those of `f`. -/
def Draws {α : Type} (n : Nat) (p : Act α) (f : α → List UInt64) : Prop :=
  ∀ s, Headroom n s →
    wlp p.run (fun r s' =>
      Rising s.clock s.lastTstamp (revsOf f r) s'.lastTstamp ∧ s'.clock = s.clock) s

section draws
variable {α β : Type} {n : Nat}
  {rs : List Resource} {s : NsState} {release : NsState → NsState} {p : Act α} {f : α → List UInt64}
  {k : α → Act β}

theorem wlp_dropAll {Q : Unit → NsState → Prop} : wlp (dropAll rs) Q s ↔ Q () s := by
  induction rs with
  | nil => exact wlp_pure ..
  | cons r rs ih => simp only [dropAll, wlp_seq, wlp_at, ih]

/-- A guard returns what its body returns, from the released state. -/
theorem wlp_guarded {Q : Except EngineError α → NsState → Prop} :
    wlp (guarded rs release p).run Q s ↔ wlp p.run (fun r s => Q r (release s)) s := by
  simp only [guarded, ExceptT.run_mk, Prog.modify, wlp_seq, wlp_step, wlp_dropAll, wlp_pure]

theorem Stampless.wlp {p : Task α} (h : Stampless p) (s : NsState) :
    wlp p (fun _ s' => Unstamped s s') s :=
  Prog.Within.run Same.refl Same.trans h s

/-- A revision is drawn: it is above the last one and not behind the clock. -/
theorem Headroom.next (h : Headroom (n + 1) s) : s.lastTstamp < nextRevision s
      ∧ s.clock s.readings ≤ nextRevision s
      ∧ Headroom n { s with readings := s.readings + 1, lastTstamp := nextRevision s } := by
  obtain ⟨hlast, hclock⟩ := h
  have hnow := hclock s.readings
  have hclock' : ∀ m, (s.clock m).toNat + n < 2 ^ 64 := fun m => Nat.lt_of_succ_lt (hclock m)
  by_cases hgt : s.clock s.readings > s.lastTstamp
  · simp only [nextRevision, if_pos hgt]
    exact ⟨hgt, UInt64.le_refl _, Nat.lt_of_succ_lt hnow, hclock'⟩
  · simp only [nextRevision, if_neg hgt]
    have hsucc : (s.lastTstamp + 1).toNat = s.lastTstamp.toNat + 1 := by
      rw [UInt64.toNat_add]
      exact Nat.mod_eq_of_lt (by change s.lastTstamp.toNat + 1 < 2 ^ 64; omega)
    have hlt : s.lastTstamp < s.lastTstamp + 1 := UInt64.lt_iff_toNat_lt.mpr (by omega)
    refine ⟨hlt, UInt64.le_trans (UInt64.not_lt.mp hgt) (UInt64.le_of_lt hlt), ?_, hclock'⟩
    change (s.lastTstamp + 1).toNat + n < 2 ^ 64
    omega

theorem wlp_nextTstamp (h : Headroom (n + 1) s) :
    wlp nextTstamp (fun t s' => s.lastTstamp < t ∧ (∃ n, s.clock n ≤ t) ∧ s'.lastTstamp = t
      ∧ s'.clock = s.clock ∧ Headroom n s') s := by
  simp only [nextTstamp, nowMs, wlp_seq, wlp_step]
  exact ⟨h.next.1, ⟨_, h.next.2.1⟩, trivial, trivial, h.next.2.2⟩

theorem Draws.calm (h : Stampless p.run) : Draws n p fun _ => [] := by
  intro s _
  refine wlp_mono (h.wlp s) fun r s' hu => ⟨?_, hu.clock⟩
  have hrevs : revsOf (fun _ : α => []) r = [] := by cases r <;> rfl
  rw [hrevs, hu.last]
  exact Rising.nil (UInt64.le_refl _)

theorem Draws.ret {a : α} (h : f a = []) : Draws n (pure a) f := by
  intro s _
  rw [wlp_run_pure, revsOf, h]
  exact ⟨Rising.nil (UInt64.le_refl _), rfl⟩

/-- Calm code behind, which returns what was drawn. -/
theorem Draws.before {g : β → List UInt64} (hp : Draws n p f) (hk : ∀ a, Stampless (k a).run)
    (hret : ∀ a s, wlp (k a).run (fun r _ => ∀ b, r = .ok b → g b = f a) s) :
    Draws n (p >>= k) g := by
  intro s hs
  simp only [wlp_run_seq]
  refine wlp_mono (hp s hs) fun r s₁ h => ?_
  cases r with
  | error e => exact h
  | ok a =>
    simp only [onOk_ok]
    intro r s' hrun
    have hu : Unstamped s₁ s' := (hk a).wlp s₁ r s' hrun
    rw [hu.last, hu.clock]
    refine ⟨?_, h.2⟩
    cases r with
    | error e => exact Rising.nil (h.1.le _ (List.mem_cons_self ..))
    | ok b =>
      simp only [revsOf, hret a s₁ _ s' hrun b rfl]
      exact h.1

/-- Calm code in front. -/
theorem Draws.after {f : β → List UInt64} (hp : Stampless p.run)
    (hk : ∀ a, Draws n (k a) f) : Draws n (p >>= k) f := by
  intro s hs
  simp only [wlp_run_seq]
  refine wlp_mono (hp.wlp s) fun r s₁ hu => ?_
  cases r with
  | error e => exact ⟨Rising.nil (hu.last ▸ UInt64.le_refl _), hu.clock⟩
  | ok a =>
    have hrest := hk a s₁ (hs.unstamped hu)
    rw [hu.last, hu.clock] at hrest
    exact hrest

/-- The result is repackaged. -/
theorem Draws.map {g : β → List UInt64} (k : α → β)
    (hp : Draws n p f) (hg : ∀ a, g (k a) = f a) : Draws n (p >>= fun a => pure (k a)) g := by
  intro s hs
  simp only [wlp_run_seq]
  refine wlp_mono (hp s hs) fun r s₁ h => ?_
  cases r with
  | error e => exact h
  | ok a =>
    simp only [onOk_ok, wlp_run_pure, revsOf, hg]
    exact h

theorem Draws.guarded
    (hr : ∀ s, Unstamped s (release s)) (hp : Draws n p f) :
    Draws n (BeyondKv.guarded rs release p) f := by
  intro s hs
  refine wlp_guarded.mpr (wlp_mono (hp s hs) fun r s₁ h => ?_)
  have hu : Unstamped s₁ (release s₁) := hr s₁
  rw [hu.last, hu.clock]
  exact h

/-- A revision is drawn, and the calm rest returns it. -/
theorem Draws.next {rest : UInt64 → Act α} (hc : ∀ t, Stampless (rest t).run)
    (hret : ∀ t s, wlp (rest t).run (fun r _ => ∀ a, r = .ok a → f a = [t]) s) :
    Draws 1 (lift nextTstamp >>= rest) f := by
  intro s hs
  simp only [wlp_run_seq, lift, wlp_run_lift]
  refine wlp_mono (wlp_nextTstamp hs) fun t s₁ hnext => ?_
  obtain ⟨hlt, hread, hlast, hclock, -⟩ := hnext
  intro r s' hrun
  have hu : Unstamped s₁ s' := (hc t).wlp s₁ r s' hrun
  rw [hu.last, hu.clock, hlast, hclock]
  refine ⟨?_, rfl⟩
  cases r with
  | error e => exact Rising.nil (UInt64.le_of_lt hlt)
  | ok a =>
    simp only [revsOf, hret t s₁ _ s' hrun a rfl]
    exact Rising.cons hlt hread (Rising.nil (UInt64.le_refl _))

/-- Whatever runs first, the result comes from the rest. -/
theorem returns_seq {R : β → Prop}
    (hk : ∀ a s, wlp (k a).run (fun r _ => ∀ b, r = .ok b → R b) s) (s : NsState) :
    wlp (p >>= k).run (fun r _ => ∀ b, r = .ok b → R b) s := by
  simp only [wlp_run_seq]
  intro r s' _
  cases r with
  | error e => exact fun b hb => by cases hb
  | ok a => exact hk a s'

theorem returns_pure {a : α} {R : α → Prop} (h : R a) (s : NsState) :
    wlp (pure a : Act α).run (fun r _ => ∀ b, r = .ok b → R b) s := by
  rw [wlp_run_pure]
  rintro b hb
  cases hb
  exact h

theorem returns_guarded {R : α → Prop}
    (hp : ∀ s, wlp p.run (fun r _ => ∀ b, r = .ok b → R b) s) (s : NsState) :
    wlp (BeyondKv.guarded rs release p).run (fun r _ => ∀ b, r = .ok b → R b) s := by
  exact wlp_guarded.mpr (hp s)

end draws

/-! ## Calls -/

section calls
variable (P : Prims)

theorem draws_commitPut (key value m : Bytes) (x : Option UInt64) :
    Draws 1 (commitPut P key value m x) fun t => [t] := by
  refine Draws.next (fun t => ?_) fun t => ?_
  · exact .run_seq (calm_maybeSeparate P value) fun sep =>
      .run_seq (calm_encodeOp P _ _ _) fun buf =>
      .run_seq (calm_lift (calm_at .io rfl)) fun _ => .run_seq (calm_lift (calm_gets _)) fun f =>
        .run_seq (calm_appendOrUnref f buf _) fun off =>
          .run_seq (calm_lift (calm_countAppend f off _)) fun _ =>
            .run_seq (calm_lift (calm_at .effect rfl)) fun _ =>
              .run_seq (calm_lift (Prog.within_modify fun s => same_unref? _ (s.setIndex _)))
              fun _ =>
              .run_seq (calm_rotateIfFull P f) fun _ => trivial
  · exact returns_seq fun _ => returns_seq fun _ => returns_seq fun _ => returns_seq fun _ =>
      returns_seq fun _ => returns_seq fun _ => returns_seq fun _ => returns_seq fun _ =>
        returns_seq fun _ => returns_pure rfl

theorem draws_writing {α : Type} {n : Nat} {f : α → List UInt64} (key : Bytes) {body : Act α}
    (h : Draws n body f) : Draws n (writing P key body) f :=
  .after (calm_lift calm_awaitReclaim) fun _ => .after calm_beginWrite fun _ =>
    .guarded (fun _ => rfl) (.after (calm_lift (calm_lockStripe _)) fun _ =>
      .guarded (fun _ => rfl) h)

theorem draws_putFullCond (key value m : Bytes) (x : Option UInt64) (cond : WriteCondition)
    (now : UInt64) : Draws 1 (putFullCond P key value m x cond now) Option.toList := by
  refine draws_writing P key (.after (calm_lift (calm_gets _)) fun rev => ?_)
  by_cases hc : cond.check rev = true
  · simp only [hc, if_true]
    exact (draws_commitPut P key value m x).map some fun _ => rfl
  · simp only [hc, Bool.false_eq_true, if_false]
    exact .after (calm_lift (calm_at .effect rfl)) fun _ => .ret rfl

theorem draws_encodeBatch (pairs : List (Bytes × Bytes)) (buf : Bytes) :
    Draws pairs.length (encodeBatch P pairs buf) fun r => r.2.map BatchItem.tstamp := by
  induction pairs generalizing buf with
  | nil => exact .ret rfl
  | cons pair pairs ih =>
    obtain ⟨k, v⟩ := pair
    intro s hs
    simp only [encodeBatch, wlp_run_seq, lift, wlp_run_lift]
    refine wlp_mono (wlp_nextTstamp hs) fun t s₁ hnext => ?_
    obtain ⟨hlt, hread, hlast, hclock, hroom⟩ := hnext
    refine wlp_mono (Stampless.wlp (calm_maybeSeparate P v) s₁) fun r s₂ hu => ?_
    have hfail : Rising s.clock s.lastTstamp [] s₂.lastTstamp ∧ s₂.clock = s.clock := by
      rw [hu.last, hu.clock, hlast, hclock]
      exact ⟨Rising.nil (UInt64.le_of_lt hlt), rfl⟩
    cases r with
    | error e => exact hfail
    | ok sep =>
      simp only [onOk_ok]
      refine wlp_mono (Stampless.wlp (calm_encodeOp P buf t _) s₂) fun r s₃ hu' => ?_
      have hlast' : s₃.lastTstamp = t := hu'.last.trans (hu.last.trans hlast)
      have hclock' : s₃.clock = s.clock := hu'.clock.trans (hu.clock.trans hclock)
      cases r with
      | error e =>
        rw [onOk_error, hlast', hclock']
        exact ⟨Rising.nil (UInt64.le_of_lt hlt), rfl⟩
      | ok buf' =>
        simp only [onOk_ok]
        refine wlp_mono (ih buf' s₃ (hroom.unstamped (hu.trans hu'))) fun r s₄ hrest => ?_
        rw [hlast', hclock'] at hrest
        cases r with
        | error e =>
          exact ⟨Rising.nil (UInt64.le_trans (UInt64.le_of_lt hlt)
            (hrest.1.le t (List.mem_cons_self ..))), hrest.2⟩
        | ok r =>
          simp only [onOk_ok, wlp_run_pure, revsOf, List.map_cons]
          exact ⟨Rising.cons hlt hread hrest.1, hrest.2⟩

theorem draws_putMany (pairs : List (Bytes × Bytes)) :
    Draws pairs.length (putMany P pairs) fun ts => ts := by
  refine .after (calm_lift calm_awaitReclaim) fun _ => .after calm_beginWrite fun _ =>
    .guarded (fun _ => rfl) ?_
  by_cases hempty : pairs.isEmpty = true
  · simp only [hempty, if_true]
    exact .after (calm_lift (calm_at .effect rfl)) fun _ => .ret rfl
  · simp only [hempty, Bool.false_eq_true, if_false]
    refine .after (calm_lift (calm_lockStripes _)) fun _ =>
      .guarded (same_unlockStripes _)
        ((draws_encodeBatch P pairs []).before (fun r => ?_) fun r => ?_)
    · exact .run_seq (calm_lift (calm_at .io rfl)) fun _ =>
        .run_seq (calm_lift (calm_gets _)) fun f =>
        .run_seq (calm_appendOrUnref f _ _) fun off =>
          .run_seq (calm_lift (calm_countAppend f off _)) fun _ =>
            .run_seq (calm_lift (calm_at .effect rfl)) fun _ =>
              .run_seq (calm_lift (Prog.within_modify fun s => same_unrefs _ (s.setIndex _)))
              fun _ =>
              .run_seq (calm_rotateIfFull P f) fun _ => trivial
    · exact returns_seq fun _ => returns_seq fun _ => returns_seq fun _ => returns_seq fun _ =>
        returns_seq fun _ => returns_seq fun _ => returns_seq fun _ => returns_pure rfl

theorem draws_commitTombstone (key : Bytes) : Draws 1 (commitTombstone P key) fun t => [t] := by
  refine .after (calm_lift (calm_at .effect rfl)) fun _ =>
    .after (calm_lift (Prog.within_step fun s => rfl)) fun old =>
      Draws.next (fun t => ?_) fun t => ?_
  · exact .run_seq (calm_encodeOp P _ _ _) fun buf =>
      .run_seq (calm_lift (calm_at .io rfl)) fun _ =>
      .run_seq (calm_lift (calm_gets _)) fun f => .run_seq (calm_append f buf) fun off =>
        .run_seq (calm_lift (calm_countAppend f off _)) fun _ =>
          .run_seq (calm_lift (Prog.within_modify (same_unref? old))) fun _ => trivial
  · exact returns_seq fun _ => returns_seq fun _ => returns_seq fun _ => returns_seq fun _ =>
      returns_seq fun _ => returns_seq fun _ => returns_pure rfl

theorem draws_tombstone (key : Bytes) : Draws 1 (tombstone P key) Option.toList := by
  refine draws_writing P key (.after (calm_lift (calm_gets _)) fun live => ?_)
  cases live with
  | true => exact (draws_commitTombstone P key).map some fun _ => rfl
  | false =>
    exact .after (calm_lift (calm_at .effect rfl)) fun _ =>
      .after (calm_lift (Prog.within_modify fun _ => rfl)) fun _ => .ret rfl

theorem draws_tombstoneCond (key : Bytes) (rev now : UInt64) :
    Draws 1 (tombstoneCond P key rev now) Option.toList := by
  refine draws_writing P key (.after (calm_lift (calm_gets _)) fun live => ?_)
  cases live with
  | true => exact (draws_commitTombstone P key).map some fun _ => rfl
  | false => exact .after (calm_lift (calm_at .effect rfl)) fun _ => .ret rfl

theorem draws_ttlUpdate (key : Bytes) (x : Option UInt64) :
    Draws 1 (ttlUpdate P key x) fun t => [t] := by
  refine draws_writing P key (Draws.next (fun t => ?_) fun t => ?_)
  · exact .run_seq (calm_encodeOp P _ _ _) fun buf =>
      .run_seq (calm_lift (calm_at .io rfl)) fun _ =>
      .run_seq (calm_lift (calm_gets _)) fun f => .run_seq (calm_append f buf) fun off =>
        .run_seq (calm_lift (calm_countAppend f off _)) fun _ =>
          .run_seq (calm_lift (calm_at .effect rfl)) fun _ =>
            .run_seq (calm_lift (Prog.within_modify fun _ => rfl)) fun _ => trivial
  · exact returns_seq fun _ => returns_seq fun _ => returns_seq fun _ => returns_seq fun _ =>
      returns_seq fun _ => returns_seq fun _ => returns_seq fun _ => returns_pure rfl

theorem draws_flush : Draws 1 flush fun t => [t] := by
  refine .after (calm_lift calm_awaitReclaim) fun _ =>
    .after (calm_lift (Prog.within_step fun s => rfl)) fun busy => ?_
  refine act_unless (Draws 1 · _) ?_ fun h => .after trivial fun _ => h
  refine .after (calm_lift (calm_at .lock rfl)) fun _ =>
    .after (calm_lift calm_drainWrites) fun _ =>
    Draws.next (fun t => ?_) fun t => ?_
  · exact .run_seq (calm_lift (calm_at .lock rfl)) fun _ =>
      calm_guarded (fun _ => rfl) (.run_seq calm_flushInner fun _ => trivial)
  · exact returns_seq fun _ => returns_guarded (returns_seq fun _ => returns_pure rfl)

end calls

/-- The most revisions a call can draw. -/
def Call.draws : Call → Nat
  | .putMany pairs => pairs.length
  | .putFull .. | .putFullCond .. | .tombstone _ | .tombstoneCond .. | .ttlUpdate .. | .flush => 1
  | .rotateActive | .reclaim | .sync | .restart .. => 0

theorem acked_eq_revsOf (r : Except EngineError (List UInt64)) :
    acked r = revsOf (fun ts => ts) r := by
  cases r <;> rfl

/-- Whatever the state, the revisions a call acknowledges rise from the last one. -/
theorem Call.rising (P : Prims) (call : Call) : Draws call.draws (call.act P) fun ts => ts := by
  cases call with
  | putFull k v m x =>
    exact (draws_writing P k (draws_commitPut P k v m x)).map (fun t => [t]) fun _ => rfl
  | putFullCond k v m x cond now => exact (draws_putFullCond P k v m x cond now).map _ fun _ => rfl
  | putMany pairs => exact draws_putMany P pairs
  | tombstone k => exact (draws_tombstone P k).map _ fun _ => rfl
  | tombstoneCond k rev now => exact (draws_tombstoneCond P k rev now).map _ fun _ => rfl
  | ttlUpdate k x => exact (draws_ttlUpdate P k x).map (fun t => [t]) fun _ => rfl
  | rotateActive => exact (Draws.calm (calm_rotateActive P)).map (fun _ => []) fun _ => rfl
  | reclaim => exact (Draws.calm (calm_reclaim P)).map (fun _ => []) fun _ => rfl
  | sync => exact (Draws.calm calm_syncLog).map (fun _ => []) fun _ => rfl
  | flush => exact draws_flush.map (fun t => [t]) fun _ => rfl
  | restart config clock => exact (Draws.calm (calm_seal P)).map (fun _ => []) fun _ => rfl

end BeyondKv
