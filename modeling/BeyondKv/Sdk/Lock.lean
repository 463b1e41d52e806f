/-
# Locks

A lock is a key with a token for its value. `tryLock` sets it if it is absent, `release` reads it,
compares the token and deletes it, and `lock` waits for its deletion between one attempt and the
next.

The delete of a release names the revision that was read. HTTP reads it along with the token and
checks it, RESP reads it afterwards and does not look at it: there, if the lock has expired and been
taken by somebody else since the token was read, it is the other's lock that is deleted
(`lock_exclusive`).

A watch tells of the deletions after it has been set up, and says nothing of a key that is absent.
If the lock is released between the attempt that fails and the subscription, the waiter waits for
a deletion that has been (`waiter_awake`).
-/
import BeyondKv.Sdk.Kv

namespace BeyondKv.Sdk.Locks

open Async

/-! ## The store and its watchers -/

/-- `crypto.randomUUID`: a call and which of its attempts. -/
abbrev Token := ℕ × ℕ

inductive WatchEvent where
  | set
  | del
  /-- The stream breaks. -/
  | error
  deriving DecidableEq

/-- What ends the loop of a waiter. -/
def WatchEvent.wakes : WatchEvent → Bool
  | .set => false
  | .del | .error => true

structure LockStore where
  kv : Kv Token
  /-- The events that a call has yet to receive, if it is subscribed. -/
  watchers : ℕ → Option (List WatchEvent)

/-- What a watch makes of a request. -/
def mutations (key : String) (before after : Kv Token) : List WatchEvent :=
  match before.records key, after.records key with
  | _, some r' => if (before.records key).map Stored.revision = some r'.revision then [] else [.set]
  | some _, none => [.del]
  | none, none => []

/-- The store serves a request and tells the watchers. -/
def exchange {β : Type} (key : String) (op : Op Token β) (s : LockStore) : Answer β × LockStore :=
  ((serve op s.kv).1,
    ⟨(serve op s.kv).2, fun i => (s.watchers i).map (· ++ mutations key s.kv (serve op s.kv).2)⟩)

/-- `watch` without `since`: first what there is. The answer is whether there is anything. -/
def subscribe (key : String) (i : ℕ) (s : LockStore) : Bool × LockStore :=
  let present := (s.kv.records key).isSome
  (present,
    { s with watchers := Function.update s.watchers i (some (if present then [.set] else [])) })

def unsubscribe (i : ℕ) (s : LockStore) : LockStore :=
  { s with watchers := Function.update s.watchers i none }

/-- The lock expires. Nobody is told. -/
def expireLock (key : String) (s : LockStore) : Option (Stored Token) × LockStore :=
  (s.kv.records key, { s with kv := (Kv.delete key s.kv).2 })

/-- The stream of a watcher breaks. -/
def cut (i : ℕ) (s : LockStore) : LockStore :=
  { s with watchers := Function.update s.watchers i ((s.watchers i).map (· ++ [.error])) }

/-! ## The calls -/

inductive Backend where
  | resp
  | http
  deriving DecidableEq

/-- A client sends a request again after some errors, as often as `retries` says. -/
structure Client where
  backend : Backend
  retries : ℕ
  resends : KvError → Bool

/-- `delete` with `ifMatch`. -/
def Client.delete (C : Client) (key : String) (revision : ℕ) : Op Token (Option (Stored Token)) :=
  match C.backend with
  | .resp => Kv.delete key
  | .http => Kv.delrev key revision

inductive LockMark where
  | acquired (token : Token)
  /-- A release has deleted a lock. The one whose token it had read was of this revision. -/
  | freed (token : Token) (read : ℕ) (old : Stored Token)
  | expired (token : Token)
  | subscribed (present : Bool)

abbrev LockProg := Prog LockStore LockMark

/-- One attempt of a request. -/
abbrev attempt {β : Type} (key : String) (op : Op Token β) (mark : β → Option LockMark) :
    LockProg (Answer β) :=
  Prog.exchange (exchange key op) fun a => a.done.toOption.bind mark

/-- An attempt, and `n` more. -/
def attempts {β : Type} (C : Client) (key : String) (op : Op Token β) (mark : β → Option LockMark) :
    ℕ → LockProg (Except KvError β)
  | 0 => do
    let a ← attempt key op mark
    return a.reply
  | n + 1 => do
    let a ← attempt key op mark
    match a.reply with
    | .ok b => return .ok b
    | .error e => if C.resends e then attempts C key op mark n else return .error e

def Client.request {β : Type} (C : Client) (key : String) (op : Op Token β)
    (mark : β → Option LockMark) :
    LockProg (Except KvError β) := attempts C key op mark C.retries

/-- What a call makes of an answer: a conflict is no error. -/
def unlessConflict {α β : Type} (done conflict : β) : Except KvError α → Except KvError β
  | .ok _ => .ok done
  | .error e => if e.status = 409 then .ok conflict else .error e

def tryLock (C : Client) (key : String) (token : Token) : LockProg (Except KvError Bool) := do
  let result ← C.request key (Kv.setIfAbsent key token) fun _ => some (.acquired token)
  return unlessConflict true false result

/-- `get`: the record whose value it has read, and the revision that it reports. HTTP reads them
together; RESP sends `GET` and `REVISION` in one pipeline, and other clients may come in between. -/
def Client.get (C : Client) (key : String) :
    LockProg (Except KvError (Option (Stored Token × ℕ))) := do
  match ← C.request key (Kv.get key) fun _ => none with
  | .error e => return .error e
  | .ok none => return .ok none
  | .ok (some entry) =>
    match C.backend with
    | .http => return .ok (some (entry, entry.revision))
    | .resp => do
      let revision ← Prog.gets fun s => ((s.kv.records key).map Stored.revision).getD 0
      return .ok (some (entry, revision))

def release (C : Client) (key : String) (token : Token) : LockProg (Except KvError Unit) := do
  match ← C.get key with
  | .error _ | .ok none => return .ok ()
  | .ok (some (entry, revision)) =>
    if entry.value ≠ token then return .ok ()
    else
      let result ← C.request key (C.delete key revision) fun old =>
        old.map (.freed token entry.revision)
      return unlessConflict () () result

/-- Wait for a deletion, or for the stream to break. -/
def awaitDel (key : String) (i : ℕ) : LockProg Unit := do
  Prog.yield
  let present ← Prog.step (subscribe key i)
  Prog.at_ (.subscribed present)
  Prog.wait fun s => (s.watchers i).any fun q => q.any WatchEvent.wakes
  Prog.modify (unsubscribe i)

/-- The rounds of `lock`, without a timeout; `fn` runs while the lock is held. -/
def lock (C : Client) (key : String) (i : ℕ) : ℕ → LockProg (Except KvError Unit)
  | 0 => return .ok ()
  | n + 1 => do
    match ← tryLock C key (i, n) with
    | .error e => return .error e
    | .ok true =>
      Prog.yield
      let _ ← release C key (i, n)
      return .ok ()
    | .ok false =>
      awaitDel key i
      lock C key i n

/-- What may happen to a lock. -/
inductive LockCall where
  | tryLock
  | release (token : Token)
  | lock (rounds : ℕ)
  | expire
  | cut (i : ℕ)
  deriving DecidableEq

/-- As the task `i`. -/
def LockCall.task (C : Client) (key : String) (i : ℕ) : LockCall → LockProg Unit
  | .tryLock => do let _ ← Locks.tryLock C key (i, 0)
  | .release token => do let _ ← Locks.release C key token
  | .lock rounds => do let _ ← Locks.lock C key i rounds
  | .expire =>
    do let _ ← Prog.exchange (expireLock key) fun old => old.map fun r => .expired r.value
  | .cut j => do
    Prog.yield
    Prog.modify (Locks.cut j)

def lockTasks (C : Client) (key : String) (calls : List LockCall) : List (LockProg Unit) :=
  calls.mapIdx (LockCall.task C key)

/-- What has happened, newest first. -/
abbrev LockTrace := List LockMark

abbrev lockTrace : Discipline LockStore LockMark LockTrace := .record fun l _ g => l :: g

/-! ## Rules -/

section rules
variable {T β : Type} {Γ : Regime LockStore LockMark LockTrace T} {C : Client} {key : String}
  {op : Op Token β}
  {mark : β → Option LockMark}

/-- A request that is sent again finds its tokens as good as before. -/
theorem triple_request {P : Multiset T → Prop} {Q : Except KvError β → Multiset T → Prop}
    {pre : Multiset T}
    (hpre : P pre) (h : ∀ own, P own → Triple Γ own (attempt key op mark) fun a own' => P own'
      ∧ Q a.reply own') :
    Triple Γ pre (C.request key op mark) Q := by
  unfold Client.request
  induction C.retries generalizing pre with
  | zero => exact (h pre hpre).seq fun a own hown => .ret hown.2
  | succ n ih =>
    refine (h pre hpre).seq ?_
    rintro ⟨reply, done⟩ own ⟨hown, hpost⟩
    cases reply with
    | ok b => exact .ret hpost
    | error e =>
      by_cases he : C.resends e = true
      · simp only [he, if_true]
        exact ih hown
      · simp only [he]
        exact Triple.ret (Γ := Γ) hpost

/-- The tasks keep what their parts keep. -/
theorem LockCall.clean_of {i : ℕ} {c : LockCall}
    (htry : ∀ token, Triple Γ 0 (Locks.tryLock C key token) (Owning 0))
    (hrelease : ∀ token, Triple Γ 0 (Locks.release C key token) (Owning 0))
    (hawait : ∀ j, Triple Γ 0 (awaitDel key j) (Owning 0))
    (hexpire : c = .expire →
      Triple Γ 0 (Prog.exchange (expireLock key) fun old => old.map fun r => .expired r.value)
        (Owning 0))
    (hcut : ∀ j, Triple Γ 0 (Prog.modify (Locks.cut j)) Clean) :
    Triple Γ 0 (c.task C key i) Clean := by
  have hend : ∀ {own : Multiset T}, own = 0 → Triple Γ own (pure ()) Clean := fun h => .ret h
  have hlock : ∀ n, Triple Γ 0 (Locks.lock C key i n) (Owning 0) := by
    intro n
    induction n with
    | zero => exact .ret rfl
    | succ n ih =>
      refine (htry _).seq ?_
      rintro x _ rfl
      match x with
      | .error e => exact .ret rfl
      | .ok true =>
        refine Triple.yield.seq ?_
        rintro _ _ rfl
        refine (hrelease _).seq ?_
        rintro _ _ rfl
        exact .ret rfl
      | .ok false =>
        refine (hawait i).seq ?_
        rintro _ _ rfl
        exact ih
  cases c with
  | tryLock => exact (htry _).seq fun _ _ hown => hend hown
  | release token => exact (hrelease token).seq fun _ _ hown => hend hown
  | lock rounds => exact (hlock rounds).seq fun _ _ hown => hend hown
  | expire => exact (hexpire rfl).seq fun _ _ hown => hend hown
  | cut j =>
    refine Triple.yield.seq ?_
    rintro _ _ rfl
    exact hcut j

end rules

/-! ## Holders -/

/-- A delete over RESP finds the lock whose token the release has read. -/
def LockMark.Guarded (B : Backend) : LockMark → Prop
  | .freed _ read old => B = .resp → old.revision = read
  | _ => True

/-- The runs whose steps all do so. -/
def guarded (B : Backend) : Discipline LockStore LockMark LockTrace :=
  ⟨fun l _ g => l :: g, fun l _ _ => l.Guarded B⟩

/-- Whose lock has neither expired since it was taken, nor been deleted by its own release. -/
def Holds : LockTrace → Token → Prop
  | [], _ => False
  | .acquired t' :: g, t => t = t' ∨ Holds g t
  | .freed t' _ old :: g, t => ¬ (t = t' ∧ old.value = t) ∧ Holds g t
  | .expired t' :: g, t => t ≠ t' ∧ Holds g t
  | .subscribed _ :: g, t => Holds g t

instance decidableHolds : (g : LockTrace) → (t : Token) → Decidable (Holds g t)
  | [], _ => inferInstanceAs (Decidable False)
  | .acquired t' :: g, t =>
    have := decidableHolds g t
    inferInstanceAs (Decidable (t = t' ∨ Holds g t))
  | .freed t' _ old :: g, t =>
    have := decidableHolds g t
    inferInstanceAs (Decidable (¬ (t = t' ∧ old.value = t) ∧ Holds g t))
  | .expired t' :: g, t =>
    have := decidableHolds g t
    inferInstanceAs (Decidable (t ≠ t' ∧ Holds g t))
  | .subscribed _ :: g, t => decidableHolds g t

/-- The holder is who the lock says, and a release deletes no other lock. The tokens are what the
calls have read. -/
structure Exclusive (key : String) (M : Multiset (Stored Token)) (g : LockTrace) (s : LockStore) :
    Prop where
  dated : s.kv.Dated key
  read : ∀ r ∈ M, s.kv.Read key r
  holds : ∀ t, Holds g t → (s.kv.records key).map Stored.value = some t
  own : ∀ t read old, .freed t read old ∈ g → old.value = t

section exclusion
variable {key : String} {M f : Multiset (Stored Token)} {g : LockTrace} {s s' : LockStore}
  {t : Token} {C : Client}

/-- Nothing has happened to the lock. -/
theorem Exclusive.same (h : Exclusive key M g s) {n : ℕ}
    (hkv : s'.kv = { s.kv with requests := n }) :
    Exclusive key M g s' := by
  have hrec : s'.kv.records key = s.kv.records key := by rw [hkv]
  have hrev : s'.kv.revision = s.kv.revision := by rw [hkv]
  refine ⟨fun r hr => ?_, fun r hr => ?_, fun t ht => hrec ▸ h.holds t ht, h.own⟩
  · rw [hrev]
    exact h.dated r (hrec ▸ hr)
  · have hread := h.read r hr
    exact ⟨hrev ▸ hread.1, fun r' hr' => hread.2 r' (hrec ▸ hr')⟩

/-- A call forgets what it has read. -/
theorem Exclusive.forget (h : Exclusive key (M + f) g s) : Exclusive key f g s :=
  ⟨h.dated, fun r hr => h.read r (Multiset.mem_add.mpr (.inr hr)), h.holds, h.own⟩

/-- A call reads the lock. -/
theorem Exclusive.recall (h : Exclusive key M g s) {r : Stored Token}
    (hr : s.kv.records key = some r) :
    Exclusive key ({r} + M) g s := by
  refine ⟨h.dated, fun x hx => ?_, h.holds, h.own⟩
  rcases Multiset.mem_add.mp hx with hx | hx
  · rw [Multiset.mem_singleton.mp hx]
    exact h.dated.read hr
  · exact h.read x hx

/-- A free lock is taken. -/
theorem Exclusive.acquire (h : Exclusive key M g s) (hfree : s.kv.records key = none) {n : ℕ}
    (hkv : s'.kv = { s.kv.put key t none with requests := n }) :
    Exclusive key M (.acquired t :: g) s' := by
  have hput : Exclusive key M (.acquired t :: g) { s with kv := s.kv.put key t none } := by
    refine ⟨Kv.Dated.put, fun r hr => (h.read r hr).put, ?_, fun t' read old hmem => ?_⟩
    · rintro t' (rfl | ht')
      · exact congrArg (Option.map Stored.value) Kv.records_put
      · have hheld := h.holds t' ht'
        rw [hfree] at hheld
        cases hheld
    · exact h.own t' read old ((List.mem_cons.mp hmem).resolve_left nofun)
  exact hput.same hkv

/-- The lock is deleted. -/
theorem Exclusive.lose {l : LockMark} (h : Exclusive key M g s)
    (hown : ∀ t read old, l = .freed t read old → old.value = t)
    (hgone : ∀ t, Holds (l :: g) t → Holds g t ∧ (s.kv.records key).map Stored.value ≠ some t)
    {n : ℕ}
    (hkv : s'.kv = { (Kv.delete key s.kv).2 with requests := n }) :
    Exclusive key M (l :: g) s' := by
  have hdelete : Exclusive key M (l :: g) { s with kv := (Kv.delete key s.kv).2 } := by
    refine ⟨Kv.Dated.delete, fun r hr => (h.read r hr).delete, fun t ht => ?_,
      fun t read old hmem => ?_⟩
    · obtain ⟨hold, hne⟩ := hgone t ht
      exact absurd (h.holds t hold) hne
    · rcases List.mem_cons.mp hmem with heq | hmem
      · exact hown t read old heq.symm
      · exact h.own t read old hmem
  exact hdelete.same hkv

/-- There is no lock, and so nothing to delete. -/
theorem Exclusive.vain (h : Exclusive key M g s) (hfree : s.kv.records key = none) {n : ℕ}
    (hkv : s'.kv = { (Kv.delete key s.kv).2 with requests := n }) : Exclusive key M g s' := by
  have hsame : (Kv.delete key s.kv).2 = s.kv := by
    unfold Kv.delete
    rw [← hfree, Function.update_eq_self]
  rw [hsame] at hkv
  exact h.same hkv

/-- A release deletes the lock that it has read. -/
theorem Exclusive.free {r old : Stored Token} (h : Exclusive key M g s) (hr : r ∈ M)
    (hrec : s.kv.records key = some old)
    (hrev : old.revision = r.revision) {n : ℕ}
    (hkv : s'.kv = { (Kv.delete key s.kv).2 with requests := n }) :
    Exclusive key M (.freed r.value r.revision old :: g) s' := by
  have hvalue : old.value = r.value := (h.read r hr).2 old hrec hrev
  refine h.lose ?_ (fun t ht => ⟨ht.2, fun hheld => ht.1 ?_⟩) hkv
  · rintro t read old' ⟨⟩
    exact hvalue
  · rw [hrec] at hheld
    have hold : old.value = t := Option.some.inj hheld
    exact ⟨hold.symm.trans hvalue, hold⟩

theorem Exclusive.expire {r : Stored Token} (h : Exclusive key M g s)
    (hrec : s.kv.records key = some r) {n : ℕ}
    (hkv : s'.kv = { (Kv.delete key s.kv).2 with requests := n }) :
    Exclusive key M (.expired r.value :: g) s' := by
  refine h.lose nofun (fun t ht => ⟨ht.2, fun hheld => ht.1 ?_⟩) hkv
  rw [hrec] at hheld
  exact (Option.some.inj hheld).symm

abbrev excluding (C : Client) (key : String) : Regime LockStore LockMark LockTrace (Stored Token) :=
  .plain (guarded C.backend) (Exclusive key)

variable {β : Type} {op : Op Token β} {mark : β → Option LockMark}

/-- An attempt: the store carries the request out, or does nothing. -/
theorem triple_attempt {Q : Except KvError β → Multiset (Stored Token) → Prop}
    (hdone : ∀ f g s s' n, Exclusive key (M + f) g s → s'.kv = { (op s.kv).2 with requests := n } →
      (∀ l, (op s.kv).1.toOption.bind mark = some l → l.Guarded C.backend) →
      ∃ own, Exclusive key (own + f) (((op s.kv).1.toOption.bind mark).elim g fun l => l :: g) s'
        ∧ Q (op s.kv).1 own ∧ ∀ e, Q (.error e) own)
    (hfailed : ∀ e, Q (.error e) M) :
    Triple (excluding C key) M (attempt key op mark) fun a own => Q a.reply own := by
  refine Triple.exchange fun f g s h hallow => ?_
  rcases serve_cases op s.kv with ⟨reply, hserve, hreply⟩ | ⟨e, hserve⟩
  · have hx : (exchange key op s).1 = ⟨reply, (op s.kv).1⟩ := congrArg Prod.fst hserve
    rw [hx] at hallow ⊢
    obtain ⟨own, hinv, hpost, herr⟩ :=
      hdone f g s (exchange key op s).2 _ h (congrArg Prod.snd hserve) hallow
    refine ⟨own, hinv, ?_⟩
    rcases hreply with rfl | ⟨e, rfl⟩
    · exact hpost
    · exact herr e
  · have hx : (exchange key op s).1 = ⟨.error e, .error e⟩ := congrArg Prod.fst hserve
    rw [hx]
    exact ⟨_, h.same (congrArg Prod.snd hserve), hfailed e⟩

theorem tryLock_excluding (token : Token) :
    Triple (excluding C key) 0 (tryLock C key token) (Owning 0) := by
  have hset :
    Triple (excluding C key) 0
    (C.request key (Kv.setIfAbsent key token) fun _ => some (.acquired token))
      (Owning 0) := by
    refine triple_request (P := (· = 0)) rfl ?_
    rintro _ rfl
    refine triple_attempt (Q := fun _ own => own = 0 ∧ own = 0)
      (fun f g s s' n h hkv _ => ⟨0, ?_, ⟨rfl, rfl⟩, fun _ => ⟨rfl, rfl⟩⟩) fun _ => ⟨rfl, rfl⟩
    cases hrec : s.kv.records key with
    | none =>
      have hop : Kv.setIfAbsent key token s.kv = (.ok (), s.kv.put key token none) :=
        by simp [Kv.setIfAbsent, hrec]
      rw [hop] at hkv ⊢
      exact h.acquire hrec hkv
    | some r =>
      have hop : Kv.setIfAbsent key token s.kv = (.error ⟨409⟩, s.kv) :=
        by simp [Kv.setIfAbsent, hrec]
      rw [hop] at hkv ⊢
      exact h.same hkv
  exact hset.seq fun _ _ hown => .ret hown

/-- The delete of a release. -/
theorem delete_excluding {r : Stored Token} {n : ℕ} (hr : r ∈ M)
    (hn : C.backend = .http → n = r.revision) :
    Triple (excluding C key) M (attempt key (C.delete key n) fun old =>
      old.map (.freed r.value r.revision)) fun _ own => own = M := by
  refine triple_attempt (Q := fun _ own => own = M)
    (fun f g s s' n h hkv hallow => ⟨M, ?_, rfl, fun _ => rfl⟩)
    fun _ => rfl
  have hmem : r ∈ M + f := Multiset.mem_add.mpr (.inl hr)
  have hmark : ∀ old, s.kv.records key = some old → (Kv.delete key s.kv).1.toOption.bind
      (Option.map (LockMark.freed r.value r.revision)) = some (.freed r.value r.revision old) :=
      fun old hrec => by
    simp [Kv.delete, hrec, Except.toOption]
  unfold Client.delete at hkv hallow ⊢
  cases hB : C.backend with
  | resp =>
    simp only [hB] at hkv hallow ⊢
    cases hrec : s.kv.records key with
    | none =>
      have hnone :
          (Kv.delete key s.kv).1.toOption.bind (Option.map (LockMark.freed r.value r.revision))
          = none := by
        simp [Kv.delete, hrec, Except.toOption]
      rw [hnone]
      exact h.vain hrec hkv
    | some old =>
      rw [hmark old hrec]
      exact h.free hmem hrec (hallow _ (hmark old hrec) rfl) hkv
  | http =>
    cases hn hB
    simp only [hB] at hkv hallow ⊢
    by_cases hmatch : ∃ old, s.kv.records key = some old ∧ old.revision = r.revision
    · obtain ⟨old, hrec, hrev⟩ := hmatch
      have hop : Kv.delrev key r.revision s.kv = Kv.delete key s.kv :=
        by simp [Kv.delrev, hrec, hrev]
      rw [hop] at hkv ⊢
      rw [hmark old hrec]
      exact h.free hmem hrec hrev hkv
    · have hop : Kv.delrev key r.revision s.kv = (.error ⟨409⟩, s.kv) := by
        unfold Kv.delrev
        cases hrec : s.kv.records key with
        | none => rfl
        | some old => exact if_neg fun hrev => hmatch ⟨old, hrec, hrev⟩
      rw [hop] at hkv ⊢
      exact h.same hkv

/-- A call remembers the record whose value it has read. -/
theorem get_excluding : Triple (excluding C key) 0 (C.get key) fun x own =>
    ∀ r n, x = .ok (some (r, n)) → r ∈ own ∧ (C.backend = .http → n = r.revision) := by
  have hread : Triple (excluding C key) 0 (C.request key (Kv.get key) fun _ => none) fun x own =>
      ∀ r, x = .ok (some r) → r ∈ own := by
    refine triple_request (P := fun _ => True) trivial fun own _ => ?_
    refine (triple_attempt (Q := fun x own => ∀ r, x = .ok (some r) → r ∈ own) ?_
      fun e r hr => nomatch hr).conseq fun _ _ h => ⟨trivial, h⟩
    intro f g s s' n h hkv _
    cases hrec : s.kv.records key with
    | none =>
      have hop : Kv.get key s.kv = (.ok none, s.kv) := by simp [Kv.get, hrec]
      rw [hop] at hkv ⊢
      exact ⟨own, h.same hkv, nofun, nofun⟩
    | some r =>
      have hop : Kv.get key s.kv = (.ok (some r), s.kv) := by simp [Kv.get, hrec]
      rw [hop] at hkv ⊢
      refine ⟨{r} + own, ?_, ?_, nofun⟩
      · rw [add_assoc]
        exact (h.recall hrec).same hkv
      · rintro r' ⟨⟩
        exact Multiset.mem_add.mpr (.inl (Multiset.mem_singleton_self r))
  refine hread.seq fun x own hown => ?_
  match x with
  | .error _ => exact .ret nofun
  | .ok none => exact .ret nofun
  | .ok (some entry) =>
    cases hB : C.backend with
    | http =>
      refine Triple.ret (Γ := excluding C key) ?_
      rintro r n ⟨⟩
      exact ⟨hown entry rfl, fun _ => rfl⟩
    | resp =>
      intro f g s h
      refine ⟨own, h, ?_⟩
      rintro r n ⟨⟩
      exact ⟨hown entry rfl, nofun⟩

theorem release_excluding (token : Token) :
    Triple (excluding C key) 0 (release C key token) (Owning 0) := by
  -- whatever the call has read by then, it forgets
  suffices hown : Triple (excluding C key) 0 (release C key token) fun _ _ => True from
    hown.drop fun _ own _ => ⟨0, rfl, fun f g s h => by
      rw [zero_add]
      exact Exclusive.forget h⟩
  refine get_excluding.seq fun x own hread => ?_
  match x with
  | .error _ => exact .ret trivial
  | .ok none => exact .ret trivial
  | .ok (some (entry, revision)) =>
    obtain ⟨hmem, hrev⟩ := hread entry revision rfl
    by_cases htoken : entry.value = token
    · simp only [htoken, ne_eq, not_true, if_false]
      subst htoken
      have hdelete : Triple (excluding C key) own (C.request key (C.delete key revision)
          fun old => old.map (.freed entry.value entry.revision)) fun _ _ => True := by
        refine triple_request (P := (· = own)) rfl ?_
        rintro _ rfl
        exact (delete_excluding hmem hrev).conseq fun _ _ h => ⟨h, trivial⟩
      exact hdelete.seq fun _ _ _ => Triple.ret (Γ := excluding C key) trivial
    · simp only [htoken, ne_eq, not_false_iff, if_true]
      exact Triple.ret (Γ := excluding C key) trivial

theorem awaitDel_excluding (i : ℕ) : Triple (excluding C key) 0 (awaitDel key i) (Owning 0) := by
  refine Triple.yield.seq ?_
  rintro _ _ rfl f g s h _
  have hnoted :
    Exclusive key (0 + f) (.subscribed (s.kv.records key).isSome :: g) (subscribe key i s).2 :=
    ⟨h.dated, h.read, h.holds, fun t read old hmem =>
      h.own t read old ((List.mem_cons.mp hmem).resolve_left nofun)⟩
  exact ⟨0, hnoted, trivial, fun f g s h _ => ⟨0, Exclusive.same h rfl, rfl⟩⟩

theorem expire_excluding :
    Triple (excluding C key) 0
        (Prog.exchange (expireLock key) fun old => old.map fun r => .expired r.value)
        (Owning 0) := by
  refine Triple.exchange fun f g s h _ => ⟨0, ?_, rfl⟩
  cases hrec : s.kv.records key with
  | none =>
    have hmark : (expireLock key s).1 = none := hrec
    rw [hmark]
    exact h.vain hrec rfl
  | some r =>
    have hmark : (expireLock key s).1 = some r := hrec
    rw [hmark]
    exact h.expire hrec rfl

end exclusion

instance (B : Backend) : (l : LockMark) → Decidable (l.Guarded B)
  | .freed _ read old => inferInstanceAs (Decidable (B = .resp → old.revision = read))
  | .acquired _ | .expired _ | .subscribed _ => inferInstanceAs (Decidable True)

instance (B : Backend) (l : LockMark) (g : LockTrace) (s : LockStore) :
    Decidable ((guarded B).allows l g s) :=
  inferInstanceAs (Decidable (l.Guarded B))

/-- A store without a lock, which serves every request. -/
abbrev noLock : LockStore := ⟨Kv.empty, fun _ => none⟩

/-- The settings that a client has if nobody says otherwise. -/
abbrev defaults (B : Backend) : Client := ⟨B, 2, fun e => decide (500 ≤ e.status)⟩

/-- A call waits for a deletion of a key that is not there, and has not been told of any. -/
def Stranded (key : String) (s : LockStore) (i : ℕ) : Prop :=
  s.kv.records key = none ∧ ∃ q, s.watchers i = some q ∧ q.any WatchEvent.wakes = false

/-- The runs in which the lock is there whenever a subscription takes effect. -/
def attended : Discipline LockStore LockMark LockTrace :=
  ⟨fun l _ g => l :: g, fun l _ _ => l ≠ .subscribed false⟩

/-- Whoever waits has something to wake it, or a lock whose deletion will. -/
def Awake (key : String) (s : LockStore) : Prop :=
  ∀ i q, s.watchers i = some q → q.any WatchEvent.wakes = true ∨ (s.kv.records key).isSome = true

section waiting
variable {key : String} {s : LockStore} {i : ℕ} {C : Client}

theorem Awake.not_stranded (h : Awake key s) : ¬ Stranded key s i := by
  rintro ⟨hfree, q, hq, hasleep⟩
  rcases h i q hq with hwake | hheld
  · rw [hasleep] at hwake
    cases hwake
  · rw [hfree] at hheld
    cases hheld

/-- Of a deletion every watcher is told. -/
theorem wakes_mutations {before after : Kv Token} (hheld : (before.records key).isSome = true)
    (hfree : after.records key = none) :
    (mutations key before after).any WatchEvent.wakes = true := by
  obtain ⟨r, hr⟩ := Option.isSome_iff_exists.mp hheld
  simp [mutations, hr, hfree, WatchEvent.wakes]

theorem Awake.exchange {β : Type} (op : Op Token β) (h : Awake key s) :
    Awake key (Locks.exchange key op s).2 := by
  intro i q' hq'
  obtain ⟨q, hq, rfl⟩ := Option.map_eq_some_iff.mp hq'
  rw [List.any_append, Bool.or_eq_true]
  rcases h i q hq with hwake | hheld
  · exact .inl (.inl hwake)
  · cases hfree : (serve op s.kv).2.records key with
    | none => exact .inl (.inr (wakes_mutations hheld hfree))
    | some r => exact .inr (congrArg Option.isSome hfree)

theorem Awake.update {q : Option (List WatchEvent)} (h : Awake key s)
    (hq : ∀ q' ∈ q, q'.any WatchEvent.wakes = true ∨ (s.kv.records key).isSome = true) :
    Awake key { s with watchers := Function.update s.watchers i q } := by
  intro j q' hq'
  change Function.update s.watchers i q j = some q' at hq'
  by_cases hj : j = i
  · subst hj
    rw [Function.update_self] at hq'
    exact hq q' hq'
  · rw [Function.update_of_ne hj] at hq'
    exact h j q' hq'

theorem Awake.cut (h : Awake key s) : Awake key (Locks.cut i s) := by
  refine h.update fun q hq => .inl ?_
  obtain ⟨q', -, rfl⟩ := Option.map_eq_some_iff.mp hq
  simp [WatchEvent.wakes]

abbrev waking (key : String) : Regime LockStore LockMark LockTrace Unit :=
  .plain attended fun _ _ s => Awake key s

theorem request_waking {β : Type} (op : Op Token β) (mark : β → Option LockMark) :
    Triple (waking key) 0 (C.request key op mark) (Owning 0) := by
  refine triple_request (P := (· = 0)) rfl ?_
  rintro _ rfl
  exact Triple.exchange fun f g s h _ => ⟨0, Awake.exchange op h, rfl, rfl⟩

theorem tryLock_waking (token : Token) : Triple (waking key) 0 (tryLock C key token) (Owning 0) :=
  (request_waking _ _).seq fun _ _ hown => .ret hown

theorem get_waking : Triple (waking key) 0 (C.get key) (Owning 0) := by
  refine (request_waking _ _).seq ?_
  rintro x _ rfl
  match x with
  | .error _ => exact .ret rfl
  | .ok none => exact .ret rfl
  | .ok (some entry) =>
    cases hB : C.backend with
    | http => exact Triple.ret (Γ := waking key) rfl
    | resp => exact fun f g s h => ⟨0, h, rfl⟩

theorem release_waking (token : Token) :
    Triple (waking key) 0 (release C key token) (Owning 0) := by
  refine get_waking.seq ?_
  rintro x _ rfl
  match x with
  | .error _ => exact .ret rfl
  | .ok none => exact .ret rfl
  | .ok (some (entry, revision)) =>
    by_cases htoken : entry.value = token
    · simp only [htoken, ne_eq, not_true, if_false]
      exact (request_waking _ _).seq fun _ _ hown => Triple.ret (Γ := waking key) hown
    · simp only [htoken, ne_eq, not_false_iff, if_true]
      exact Triple.ret (Γ := waking key) rfl

theorem awaitDel_waking (i : ℕ) : Triple (waking key) 0 (awaitDel key i) (Owning 0) := by
  refine Triple.yield.seq ?_
  rintro _ _ rfl f g s h hallow
  have hheld : (s.kv.records key).isSome = true := by
    by_contra hfree
    exact hallow (congrArg LockMark.subscribed (Bool.eq_false_iff.mpr hfree))
  exact ⟨0, Awake.update h fun _ _ => .inr hheld, trivial, fun f g s h _ =>
    ⟨0, Awake.update h nofun, rfl⟩⟩

end waiting

/-- As long as every subscription finds the lock there, no waiter is stranded. -/
theorem waiter_awake (C : Client) (key : String) {calls : List LockCall} (hcalls : .expire ∉ calls)
    {s₀ : LockStore}
    (hstart : ∀ i, s₀.watchers i = none) {w : Pool LockStore LockMark LockTrace}
    (hrun : Runs attended (.of (lockTasks C key calls) [] s₀) w) (i : ℕ) :
    ¬ Stranded key w.state i := by
  have hinit : Awake key s₀ := fun i q hq => by
    rw [hstart i] at hq
    cases hq
  obtain ⟨M, hinv, -⟩ := Runs.inv (Γ := waking key) hrun hinit fun p hp f g s h => by
    obtain ⟨i, hlt, rfl⟩ := List.mem_mapIdx.mp hp
    exact LockCall.clean_of tryLock_waking release_waking awaitDel_waking
      (fun hc => absurd (hc ▸ List.getElem_mem hlt) hcalls)
      (fun j f g s h => ⟨0, Awake.cut h, rfl⟩) f g s h
  exact hinv.not_stranded

instance (l : LockMark) (g : LockTrace) (s : LockStore) : Decidable (attended.allows l g s) :=
  match l with
  | .subscribed false => isFalse fun h => h rfl
  | .subscribed true => isTrue nofun
  | .acquired _ | .freed .. | .expired _ => isTrue nofun

/-- The call 1 subscribes while the call 0 holds the lock: its release wakes it. -/
theorem waiter_awake_in_time :
    ∃ w, Runs attended (.of (lockTasks (defaults .resp) "k" [.lock 2, .lock 2]) [] noLock) w
      ∧ (w.state.watchers 1).isSome = true ∧ w.state.kv.records "k" = none
      ∧ ¬ Stranded "k" w.state 1 := by
  have hview : (schedule attended ([0, 0, 0, 1, 1, 1, 1, 0, 0, 0, 0, 0].map (·, []))
      (.of (lockTasks (defaults .resp) "k" [.lock 2, .lock 2]) [] noLock)).map
        (fun w => ((w.state.watchers 1).isSome, (w.state.kv.records "k").isNone))
        = some (true, true) := by decide +kernel
  obtain ⟨w, hw, hstate⟩ := Option.map_eq_some_iff.mp hview
  obtain ⟨hwaits, hfree⟩ := Prod.ext_iff.mp hstate
  have hrun := runs_of_schedule .start hw
  have hcalls : LockCall.expire ∉ [LockCall.lock 2, .lock 2] := by decide
  exact ⟨w, hrun, hwaits, Option.isNone_iff_eq_none.mp hfree,
    waiter_awake (defaults .resp) "k" hcalls (fun _ => rfl) hrun 1⟩

/-- The call 0 releases the lock between the attempt of the call 1 and its subscription, and
returns. Nobody holds the lock, and the call 1 cannot go on. -/
theorem waiter_stranded :
    (schedule lockTrace ([0, 0, 0, 1, 1, 1, 0, 0, 0, 0, 0, 1].map (·, []))
      (.of (lockTasks (defaults .resp) "k" [.lock 2, .lock 2]) [] noLock)).map (fun w =>
        (w.tasks.map fun p => p.returned.isSome, (w.state.kv.records "k").isNone,
          w.state.watchers 1,
          (schedule lockTrace [(1, [])] w).isNone))
      = some ([true, false], true, some [], true) := by
  decide +kernel

end BeyondKv.Sdk.Locks
