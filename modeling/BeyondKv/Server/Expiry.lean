/-
# Expiries on the wire

The commands that set and show when a key expires. A timestamp becomes a duration by one reading of
the clock and an expiry again by another, and they do not count in the same unit: what is to expire
at a whole second expires some milliseconds later, unless the clock stands at a whole second
(`absolute_expiry_iff`). In a reply the remaining time shares the integers with two codes
(`ttl_replies_exact_iff`).
-/
import BeyondKv.RowStore
import BeyondKv.Server.Put

namespace BeyondKv

open Async Option

/-! ## Calls that set the expiry -/

section log
variable (P : Prims)

theorem calm_deref {N : Point → Prop} {V : Type} {π : NsState → V} [BlindIo π] [Has .io N]
    (value : Bytes) (flags : UInt8) :
    Calm N π (deref P value flags).run := by
  unfold deref
  split
  · trivial
  split
  · trivial
  · refine .run_seq
      (.run_seq (calm_lift (calm_at .io rfl)) fun _ => .run_seq (calm_ioAct (calm_io _)) fun _ =>
      calm_ioAct (calm_io _)) fun bytes => ?_
    split <;> trivial

theorem calm_readValue {N : Point → Prop} {V : Type} {π : NsState → V} [BlindIo π] [Has .io N]
    (e : IndexEntry) :
    Calm N π (readValue P e).run := by
  refine .run_seq (.run_seq (calm_lift (calm_gets _)) fun file => ?_) fun bytes =>
    .run_seq trivial fun x =>
    .run_seq (calm_deref P _ _) fun _ => trivial
  cases file with
  | none => trivial
  | some file => exact calm_readExact ..

theorem yields_ttlUpdate (key : Bytes) (x : Option UInt64) :
    Yields (ttlUpdate P key x) fun i r j => j
        = match r with | .ok _ => i.setTtl key x | .error _ => i := by
  have herror :
    ∀ (i : NsIndex) (e : EngineError), i = match (.error e : Except EngineError UInt64) with
      | .ok _ => i.setTtl key x
      | .error _ => i := fun _ _ => rfl
  refine .writing herror <| .after (calm_lift calm_nextTstamp) herror fun _ =>
    .after (calm_encodeOp P _ _ _) herror fun buf =>
    .after (calm_lift (calm_at .io rfl)) herror fun _ =>
      .after (calm_lift (calm_gets _)) herror fun f =>
      .after (calm_append f buf) herror fun off =>
        .after (calm_lift (calm_countAppend f off _)) herror fun _ =>
        .after (calm_lift (calm_at .effect rfl)) herror fun _ => ?_
  intro s r s' hend
  cases hend
  rfl

end log

namespace ShardStore
variable {J : Serde} {α : Type} {P : Prims} {key : Bytes} {t t' : ShardStore J}

/-- What a lookup finds. -/
def Lookup.of (i : NsIndex) (key : Bytes) (now : UInt64) : Lookup :=
  match i.get key with
  | none => .missing
  | some e => if isPast (i.ttl key) now then .past else .live e (i.ttl key)

theorem ends_lookup (key : Bytes) (now : UInt64) (t : ShardStore J) :
    ends (lookup key now).run t = some (.ok (.of t.log.index key now), t) := by
  refine (ends_run_ok rfl).trans ?_
  rw [Lookup.of]
  dsimp only
  cases t.log.index.get key with
  | none => rfl
  | some e =>
    simp only [map_some]
    by_cases hpast : isPast (t.log.index.ttl key) now = true
    · rw [if_pos hpast, if_pos hpast]
      rfl
    · rw [if_neg hpast, if_neg hpast]
      rfl

theorem wlp_lookup {now : UInt64} {Q : Except EngineError Lookup → ShardStore J → Prop} :
    wlp (lookup key now).run Q t ↔ Q (.ok (.of t.log.index key now)) t := wlp_iff (ends_lookup ..)

theorem Lookup.of_live {i : NsIndex} {now : UInt64} (h : (liveRev i key now).isSome = true) :
    ∃ e, Lookup.of i key now = .live e (i.ttl key) := by
  unfold liveRev at h
  split at h
  · cases h
  · rename_i hexpired
    obtain ⟨rev, hrev⟩ := isSome_iff_exists.mp h
    obtain ⟨e, he, -⟩ := map_eq_some_iff.mp hrev
    exact ⟨e, by simp only [Lookup.of, he]; exact if_neg hexpired⟩

theorem isSome_liveRev (i : NsIndex) (now : UInt64) :
    ((i.get key).isSome && !i.isExpired key now) = (liveRev i key now).isSome := by
  unfold liveRev
  cases i.isExpired key now <;> simp

/-- A read of a live key leaves the index. -/
theorem wlp_readEntry {e : IndexEntry} {x : Option UInt64} :
    wlp (readEntry P e x).run (fun _ t' => t'.log.index = t.log.index) t := by
  simp only [readEntry, wlp_run_seq, wlp_onLog]
  intro r s hend
  have hindex : s.index = t.log.index := Indexless.index (calm_readValue P e) hend
  cases r with
  | error e => exact hindex
  | ok x =>
    simp only [onOk_ok, wlp_ofExcept]
    cases (metadataFromBytes x.2 : Except EngineError (Option J.Value)) with
    | error e => exact hindex
    | ok m => exact (wlp_run_pure ..).mpr hindex

theorem wlp_getInline {now : UInt64} (hlive : (liveRev t.log.index key now).isSome = true) :
    wlp (getInline P key now).run (fun _ t' => t'.log.index = t.log.index) t := by
  obtain ⟨e, hlookup⟩ := Lookup.of_live hlive
  simp only [getInline, cacheGet, wlp_run_seq, wlp_run_lift, wlp_step, onOk_ok]
  cases (t.cache.get (cacheKey t.ns key) now).1 with
  | some d => exact (wlp_run_pure ..).mpr rfl
  | none =>
    simp only [wlp_run_seq, wlp_lookup, onOk_ok, hlookup]
    refine wlp_mono wlp_readEntry fun r t' hindex => ?_
    cases r with
    | error e => exact hindex
    | ok x => exact (wlp_run_pure ..).mpr hindex

theorem wlp_getexRead {now : UInt64} (hlive : (liveRev t.log.index key now).isSome = true) :
    wlp (getexRead P key now).run (fun r t' => t'.log.index = t.log.index ∧ r ≠ .ok none) t := by
  obtain ⟨e, hlookup⟩ := Lookup.of_live hlive
  simp only [getexRead, cacheGet, wlp_run_seq, wlp_run_lift, wlp_step, onOk_ok]
  cases (t.cache.get (cacheKey t.ns key) now).1 with
  | some d => exact (wlp_run_pure ..).mpr ⟨rfl, by simp⟩
  | none =>
    simp only [wlp_run_seq, wlp_lookup, onOk_ok, hlookup]
    refine wlp_mono wlp_readEntry fun r t' hindex => ?_
    cases r with
    | error e => exact ⟨hindex, by simp⟩
    | ok x =>
      simp only [onOk_ok, cacheInsert, wlp_change, wlp_run_pure]
      exact ⟨hindex, by simp⟩

/-- The expiry is `ttl` from now, as far as there is such a time. -/
def Expires (key : Bytes) (ttl : Nat) (t t' : ShardStore J) : Prop :=
  ∃ x, validateTtl ttl t.reading = .ok x ∧ t'.log.index.ttl key = some x

theorem wlp_updateTtl {x : UInt64} {e : Option (Entry J)} :
    wlp (updateTtl P key (some x) e).run
        (fun r t' => r = .ok () → t'.log.index.ttl key = some x) t := by
  simp only [updateTtl, wlp_run_seq, wlp_onLog]
  intro r s hend
  have hindex := yields_ttlUpdate P key (some x) _ _ _ hend
  cases r with
  | error e => simp
  | ok rev =>
    have httl : s.index.ttl key = some x := by rw [hindex]; simp
    simp only [onOk_ok, cacheRemove, wlp_change]
    cases e with
    | none => exact (wlp_run_pure ..).mpr fun _ => httl
    | some e =>
      simp only [wlp_note]
      exact fun _ => httl

theorem wlp_expire (ttl : Nat) : wlp (expire P key ttl).run (fun r t' => ∀ b, r = .ok b →
      b = (liveRev t.log.index key t.reading).isSome ∧ (b = true → Expires key ttl t t')) t := by
  simp only [expire, wlp_run_seq, wlp_nowMs, onOk_ok, wlp_look, isSome_liveRev]
  have hreading : t.ticked.log.index = t.log.index := rfl
  rw [hreading]
  cases hlive : (liveRev t.log.index key t.reading).isSome with
  | false =>
    simp only [Bool.false_eq_true, if_false, cacheRemove, wlp_change, wlp_run_seq,
      onOk_ok, wlp_run_pure]
    rintro b ⟨⟩
    exact ⟨rfl, by simp⟩
  | true =>
    simp only [if_true, wlp_run_seq, wlp_ofExcept]
    cases hx : validateTtl ttl t.reading with
    | error e => simp
    | ok x =>
      simp only [onOk_ok]
      refine wlp_mono (wlp_getInline (hreading ▸ hlive)) fun r t₁ _ => ?_
      cases r with
      | error e => simp
      | ok old =>
        simp only [onOk_ok]
        refine wlp_mono wlp_updateTtl fun r t₂ httl => ?_
        cases r with
        | error e => simp
        | ok _ =>
          refine (wlp_run_pure ..).mpr ?_
          rintro b ⟨⟩
          exact ⟨rfl, fun _ => ⟨x, hx, httl rfl⟩⟩

theorem wlp_getex (hlive : (liveRev t.log.index key t.reading).isSome = true) (ttl : Nat) :
    wlp (getex P key (some (.setTtl ttl))).run (fun r t' => ∀ e, r = .ok e → e.isSome
        ∧ Expires key ttl t t') t := by
  simp only [getex, wlp_run_seq, wlp_nowMs, onOk_ok]
  refine wlp_mono (wlp_getexRead hlive) fun r t₁ hread => ?_
  cases r with
  | error e => simp
  | ok found =>
    cases found with
    | none => exact absurd rfl hread.2
    | some found =>
      simp only [onOk_ok, wlp_run_seq, wlp_ofExcept]
      cases hx : validateTtl ttl t.reading with
      | error e => simp
      | ok x =>
        simp only [onOk_ok, wlp_onLog]
        intro r s hend
        have hindex := yields_ttlUpdate P key (some x) _ _ _ hend
        cases r with
        | error e => simp
        | ok rev =>
          simp only [onOk_ok, cacheRemove, wlp_change, wlp_run_pure]
          rintro e ⟨⟩
          exact ⟨rfl, x, hx, by rw [hindex]; simp⟩

/-- A delete that succeeds has deleted the key. -/
theorem del_gone {n : Nat} (h : ends (del P [key]).run t = some (.ok n, t')) :
    t'.log.index.get key = none := by
  obtain ⟨rows, hrows⟩ := t.log.index.indexes J
  have hgone := (del_rows hrows h).2 key
  rw [Rows.del_apply, if_pos (List.mem_singleton_self key), Option.map_none, eq_comm] at hgone
  exact Option.map_eq_none_iff.mp hgone

theorem validateTtl_ok {d : Nat} {now x : UInt64} (h : validateTtl d now = .ok x) :
    x.toNat = now.toNat + d := by
  unfold validateTtl at h
  split at h
  · cases h
  split at h
  · cases h
  cases h
  rw [UInt64.toNat_add, UInt64.toNat_ofNat', Nat.mod_eq_of_lt (by omega),
    Nat.mod_eq_of_lt (by omega)]

end ShardStore

namespace Server.Http

open ShardStore

/-! ## Commands -/

section commands
variable {J : Serde} (P : Prims) (text : Texts) (unixMs : Nat) (key : Bytes)

/-- `EXPIREAT` and `PEXPIREAT`: a time that is past deletes the key. -/
def expireAtBy (past : Bool) (ttl : Nat) : StoreTask J RespReply :=
  if past then do
    return match ← (del P [key]).run with
      | .ok _ => .integer 1
      | .error e => .error "ERR" (text e)
  else do
    return match ← (expire P key ttl).run with
      | .ok true => .integer 1
      | .ok false => .integer 0
      | .error e => .error "ERR" (text e)

def dispatchExpireAt (unixSecs : UInt64) : StoreTask J RespReply :=
  expireAtBy P text key (unixSecs.toNat ≤ unixMs / 1000) ((unixSecs.toNat - unixMs / 1000) * 1000)

def dispatchPExpireAt (unixMillis : UInt64) : StoreTask J RespReply :=
  expireAtBy P text key (unixMillis.toNat ≤ unixMs) (unixMillis.toNat - unixMs)

inductive GetExTtl where
  | set (ttl : SetTtl)
  | persist

def dispatchGetEx (ttl : Option GetExTtl) : StoreTask J RespReply := do
  let op := ttl.map fun
    | .set spec => GetExOp.setTtl (ttlDurationFromSpec unixMs spec)
    | .persist => .persist
  return match ← (getex P key op).run with
    | .ok none => .nil
    | .ok (some e) => .bulk e.value
    | .error e => .error "ERR" (text e)

/-- A time: seconds or milliseconds since the epoch. -/
inductive Stamp where
  | secs (ts : UInt64)
  | millis (ts : UInt64)

/-- What the query of a `PATCH` asks for: the first of its options that can be read. -/
inductive TtlQuery where
  | persist
  | ttl (secs : UInt64)
  | ttlMs (ms : UInt64)
  | ttlAt (stamp : Stamp)

def ttlQuery (query : Bytes) : Option TtlQuery :=
  let param (name : String) : Option UInt64 := (queryParam query (ascii name)).bind parseU64
  if (queryParam query (ascii "persist")).isSome then some .persist
  else ((param "ttl").map .ttl).or <| ((param "ttl_ms").map .ttlMs).or <|
    ((param "ttl_at").map fun ts => .ttlAt (.secs ts)).or
    ((param "ttl_at_ms").map fun ts => .ttlAt (.millis ts))

/-- The clock counts in seconds here. -/
def TtlQuery.op : TtlQuery → GetExOp
  | .persist => .persist
  | .ttl secs => .setTtl (secs.toNat * 1000)
  | .ttlMs ms => .setTtl ms.toNat
  | .ttlAt (.secs ts) => .setTtl ((ts.toNat - unixMs / 1000) * 1000)
  | .ttlAt (.millis ts) => .setTtl (ts.toNat - unixMs / 1000 * 1000)

def parseTtlOp (query : Bytes) : Option GetExOp := (ttlQuery query).map (TtlQuery.op unixMs)

inductive PatchReply (J : Serde) where
  | value (e : Entry J)
  | noContent
  | notFound
  | error (e : HttpError)

def handlePatch (parts : Parts) : StoreTask J (PatchReply J) :=
  if parts.containsKey "x-kv-return-value" then do
    return match ← (getex P key (parseTtlOp unixMs parts.query)).run with
      | .error e => .error (engineErrorResponse ⟨e, text e⟩)
      | .ok none => .notFound
      | .ok (some e) => .value e
  else match parseTtlOp unixMs parts.query with
    | none =>
      return .error
        (err 400 "invalid_request"
        "supply exactly one of: ttl, ttl_ms, ttl_at, ttl_at_ms, persist=1")
    | some .persist => do
      return match ← (persist P key).run with
        | .ok true => .noContent
        | .ok false => .notFound
        | .error e => .error (engineErrorResponse ⟨e, text e⟩)
    | some (.setTtl dur) => do
      return match ← (expire P key dur).run with
        | .ok true => .noContent
        | .ok false => .notFound
        | .error e => .error (engineErrorResponse ⟨e, text e⟩)

/-- The reply to `TTL` and `PTTL`. -/
def ttlReply : TtlResult → RespReply
  | .remaining n => .integer (toI64 n)
  | .noExpiry => .integer (-1)
  | .notFound => .integer (-2)

def dispatchTtl : StoreTask J RespReply := do
  return match ← (ttlRaw P key).run with
    | .ok r => ttlReply (TtlResult.seconds r)
    | .error e => .error "ERR" (text e)

def dispatchPTtl : StoreTask J RespReply := do
  return match ← (ttlRaw P key).run with
    | .ok r => ttlReply r
    | .error e => .error "ERR" (text e)

end commands

/-! ## The remaining time -/

/-- What is left of a key: nothing, no end, or so many milliseconds. -/
def remaining (i : NsIndex) (key : Bytes) (now : UInt64) : Option (Option Nat) :=
  if (liveRev i key now).isSome then some ((i.ttl key).map fun ms => ms.toNat - now.toNat) else none

/-- The integer that says so, in milliseconds or in whole seconds. -/
def shown (unit : Nat) : Option (Option Nat) → Int
  | none => -2
  | some none => -1
  | some (some ms) => (ms / unit : Nat)

/-- No error of the store. -/
def RespReply.Fine : RespReply → Prop
  | .error .. => False
  | _ => True

section ttl
variable {J : Serde} {P : Prims} {key : Bytes} {t t' : ShardStore J}

theorem ttlRaw_remaining : wlp (ttlRaw P key).run (fun r _ => ∀ res, r = .ok res →
      match remaining t.log.index key t.reading with
      | none => res = .notFound
      | some none => res = .noExpiry
      | some (some ms) => ∃ n : UInt64, n.toNat = ms ∧ res = .remaining n) t := by
  simp only [ttlRaw, wlp_run_seq, wlp_nowMs, onOk_ok, wlp_lookup, Lookup.of]
  have hindex : t.ticked.log.index = t.log.index := rfl
  rw [hindex, remaining, liveRev, NsIndex.isExpired]
  cases hget : t.log.index.get key with
  | none =>
    simp only [map_none, ite_self, isSome_none, Bool.false_eq_true, if_false, wlp_run_pure]
    rintro res ⟨⟩
    rfl
  | some e =>
    cases httl : t.log.index.ttl key with
    | none =>
      simp only [isPast, any_none, Bool.false_eq_true, if_false, wlp_run_pure,
        map_some, isSome_some,
        if_true, map_none]
      rintro res ⟨⟩
      rfl
    | some ms =>
      simp only [isPast, any_some]
      by_cases hpast : ms ≤ t.reading
      · simp only [decide_eq_true hpast, if_true, isSome_none, Bool.false_eq_true,
          if_false, wlp_run_seq]
        intro r t' _
        cases r with
        | error e => exact nofun
        | ok _ =>
          refine (wlp_run_pure ..).mpr ?_
          rintro res ⟨⟩
          rfl
      · simp only [decide_eq_false hpast, Bool.false_eq_true, if_false, map_some,
          isSome_some, if_true,
          wlp_run_pure]
        rintro res ⟨⟩
        exact ⟨ms - t.reading, UInt64.toNat_sub_of_le _ _
          (UInt64.le_of_lt (UInt64.not_le.mp hpast)), rfl⟩

theorem toI64_eq_iff (n : UInt64) : toI64 n = n.toNat ↔ n.toNat < 2 ^ 63 := by
  have hn : n.toNat < 18446744073709551616 := n.toNat_lt
  have hmod : toI64 n = Int.bmod n.toNat 18446744073709551616 := rfl
  rw [hmod, Int.bmod_def]
  generalize n.toNat = k at hn
  split <;> norm_num <;> omega

/-- `TTL` shows what is left, and so does `PTTL` if it is less than 2^63 milliseconds. -/
theorem ttl_replies_exact_iff (P : Prims) (text : Texts) (key : Bytes) (t : ShardStore J) :
    (∀ reply t', ends (dispatchTtl P text key) t = some (reply, t') → reply.Fine →
        reply = .integer (shown 1000 (remaining t.log.index key t.reading)))
      ∧ ∀ reply t', ends (dispatchPTtl P text key) t = some (reply, t') → reply.Fine →
        (reply = .integer (shown 1 (remaining t.log.index key t.reading))
          ↔ ∀ ms, remaining t.log.index key t.reading = some (some ms) → ms < 2 ^ 63) := by
  constructor
  · intro reply t' hend hfine
    obtain ⟨r, hrun, rfl⟩ := of_ends_return hend
    cases r with
    | error e => cases hfine
    | ok res =>
      have hres := ttlRaw_remaining _ _ hrun res rfl
      match hleft : remaining t.log.index key t.reading with
      | none | some none =>
        rw [hleft] at hres
        rw [hres]
        rfl
      | some (some ms) =>
        rw [hleft] at hres
        obtain ⟨n, rfl, rfl⟩ := hres
        have hsecs : (n / 1000).toNat = n.toNat / 1000 := UInt64.toNat_div ..
        have hfits : toI64 (n / 1000) = (n / 1000).toNat :=
          (toI64_eq_iff _).mpr (by have := n.toNat_lt; omega)
        rw [hsecs] at hfits
        exact congrArg RespReply.integer hfits
  · intro reply t' hend hfine
    obtain ⟨r, hrun, rfl⟩ := of_ends_return hend
    cases r with
    | error e => cases hfine
    | ok res =>
      have hres := ttlRaw_remaining _ _ hrun res rfl
      match hleft : remaining t.log.index key t.reading with
      | none | some none =>
        rw [hleft] at hres
        rw [hres]
        exact iff_of_true rfl nofun
      | some (some ms) =>
        rw [hleft] at hres
        obtain ⟨n, rfl, rfl⟩ := hres
        have hshown : shown 1 (some (some n.toNat)) = n.toNat := by rw [shown, Nat.div_one]
        rw [hshown]
        refine ((RespReply.integer.injEq ..).to_iff.trans (toI64_eq_iff n)).trans ?_
        simp only [Option.some.injEq, forall_eq']

/-- A key that is to expire in 2^63 milliseconds: less than nothing is left of it. -/
theorem pttl_negative :
    (do
      let t ← freshStore fun _ => 100
      let (_, t) ← ends
        (dispatchSet realPrims (fun _ => "") 100 [0x61] [1]
        ⟨some (.millis (2 ^ 63)), .always, false, false, none⟩) t
      let (reply, t') ← ends (dispatchPTtl realPrims (fun _ => "") [0x61]) t
      return (reply, remaining t'.log.index [0x61] t.reading))
          = some (.integer (-2 ^ 63), some (some (2 ^ 63))) := by
  decide +kernel

end ttl

/-! ## Timestamps -/

def Stamp.ms : Stamp → Nat
  | .secs ts => ts.toNat * 1000
  | .millis ts => ts.toNat

def Stamp.spec : Stamp → SetTtl
  | .secs ts => .unixSecs ts
  | .millis ts => .unixMillis ts

def Stamp.expireAt {J : Serde} (P : Prims) (text : Texts) (unixMs : Nat) (key : Bytes) :
    Stamp → StoreTask J RespReply
  | .secs ts => dispatchExpireAt P text unixMs key ts
  | .millis ts => dispatchPExpireAt P text unixMs key ts

theorem Stamp.expireAt_eq {J : Serde} (P : Prims) (text : Texts) (unixMs : Nat) (key : Bytes)
    (stamp : Stamp) :
    (stamp.expireAt P text unixMs key : StoreTask J RespReply)
      = expireAtBy P text key (stamp.ms ≤ unixMs) (ttlDurationFromSpec unixMs stamp.spec) := by
  cases stamp with
  | millis ts => rfl
  | secs ts =>
    have hpast : ts.toNat ≤ unixMs / 1000 ↔ ts.toNat * 1000 ≤ unixMs :=
      Nat.le_div_iff_mul_le (by decide)
    simp only [Stamp.expireAt, dispatchExpireAt, hpast]
    rfl

/-- The requests that give a key an expiry by its time. -/
inductive AtRequest (stamp : Stamp) where
  | set (value : Bytes) (args : SetArgs) (h : args.ttl = some stamp.spec)
  | getex
  | expireAt
  | patch (parts : Parts) (h : ttlQuery parts.query = some (.ttlAt stamp))

namespace AtRequest
variable {J : Serde} {stamp : Stamp}

/-- Carry the request out: whether the client is told that it is done. -/
def serve (P : Prims) (text : Texts) (unixMs : Nat) (key : Bytes) :
    AtRequest stamp → StoreTask J Bool
  | set value args _ => (SetRequest.resp unixMs args).serve P text key value
  | getex => do
    return match ← dispatchGetEx P text unixMs key (some (.set stamp.spec)) with
      | .bulk _ => true
      | _ => false
  | expireAt => do return (← stamp.expireAt P text unixMs key) == .integer 1
  | patch parts _ => do
    return match ← handlePatch P text unixMs key parts with
      | .value _ | .noContent => true
      | _ => false

/-- The time from now that it asks the store for. -/
def duration (unixMs : Nat) : AtRequest stamp → Nat
  | patch .. =>
    match stamp with
    | .secs ts => (ts.toNat - unixMs / 1000) * 1000
    | .millis ts => ts.toNat - unixMs / 1000 * 1000
  | _ => ttlDurationFromSpec unixMs stamp.spec

/-- The expiry that a write leaves: the one it asks for, the one before, or none. -/
inductive Leaves where
  | asked
  | kept
  | none

/-- `SET` with `GET` writes no expiry, and with `KEEPTTL` it leaves the one before, unless it has a
revision to match. -/
def leaves : AtRequest stamp → Leaves
  | set _ args _ =>
    match args.condition with
    | .rev _ => .asked
    | .nx | .xx => if args.keepTtl then .kept else .asked
    | .always => if args.get then .none else if args.keepTtl then .kept else .asked
  | _ => .asked

/-- Whether it counts in milliseconds throughout. -/
def precise : AtRequest stamp → Bool
  | patch .. => false
  | _ => match stamp with
      | .secs _ => false
      | .millis _ => true

/-- What `leaves` says about the expiry afterwards. -/
def Leaves.Shows (key : Bytes) (d : Nat) (t t' : ShardStore J) : Leaves → Prop
  | asked => Expires key d t t'
  | kept => t'.log.index.ttl key = t.log.index.ttl key
  | none => t'.log.index.ttl key = .none

/-- A write that inserts the expiry of a duration leaves it. -/
theorem expires_of_inserts {key : Bytes} {t t' : ShardStore J} {opts : SetOptions J} {d : Nat}
    {x : Option UInt64} {rev : UInt64} (hkeep : opts.keepTtl = false) (httl : opts.ttl = some d)
    (hx : expiry t.log.index key opts t.reading = .ok x)
    (hinserts : Inserts key x rev t.log.index t'.log.index) : Expires key d t t' := by
  rw [expiry, hkeep, httl] at hx
  cases hvalid : validateTtl d t.reading with
  | error e => simp [hvalid, Except.map] at hx
  | ok y =>
    simp only [hvalid, Except.map, Bool.false_eq_true, if_false, Except.ok.injEq] at hx
    subst hx
    exact ⟨y, hvalid, (hinserts.shows t.reading).1⟩

theorem set_shows {P : Prims} {text : Texts} {key value : Bytes} {t t' : ShardStore J}
    {args : SetArgs}
    (hargs : args.ttl = some stamp.spec)
    (h : ends ((set value args hargs).serve P text t.reading.toNat key) t = some (true, t')) :
    (set value args hargs).leaves.Shows key
    (ttlDurationFromSpec t.reading.toNat stamp.spec) t t' := by
  have hwrote := SetRequest.wrote_resp h
  have hopts : setOptsFromArgs J t.reading.toNat args
      = ⟨some (ttlDurationFromSpec t.reading.toNat stamp.spec), args.metaBytes.bind J.fromSlice,
          args.keepTtl⟩ := by
    rw [setOptsFromArgs, hargs]
    rfl
  rw [hopts] at hwrote
  -- `KEEPTTL` is looked at only where no revision is to be matched
  have hplain (hw : ∃ x rev, expiry t.log.index key
        ⟨some (ttlDurationFromSpec t.reading.toNat stamp.spec), args.metaBytes.bind J.fromSlice,
          args.keepTtl⟩ t.reading = .ok x ∧ Inserts key x rev t.log.index t'.log.index) :
      (if args.keepTtl then Leaves.kept else Leaves.asked).Shows key
        (ttlDurationFromSpec t.reading.toNat stamp.spec) t t' := by
    obtain ⟨x, rev, hx, hinserts⟩ := hw
    cases hkeep : args.keepTtl with
    | true =>
      rw [hkeep] at hx
      cases hx
      exact (hinserts.shows t.reading).1
    | false => exact expires_of_inserts hkeep rfl hx hinserts
  rw [leaves]
  rw [SetRequest.call] at hwrote
  cases hcond : args.condition with
  | nx | xx =>
    rw [hcond] at hwrote
    exact hplain hwrote
  | rev expected =>
    rw [hcond] at hwrote
    obtain ⟨-, x, rev, hx, hinserts⟩ := hwrote
    exact expires_of_inserts rfl rfl hx hinserts
  | always =>
    rw [hcond] at hwrote
    cases hget : args.get with
    | true =>
      rw [hget] at hwrote
      obtain ⟨i, rev, hinserts⟩ := hwrote
      exact (hinserts.shows t.reading).1
    | false =>
      rw [hget] at hwrote
      exact hplain hwrote

/-- A request that is done has left the expiry that `leaves` says. -/
theorem serve_shows {P : Prims} {text : Texts} {key : Bytes} {t t' : ShardStore J}
    {q : AtRequest stamp}
    (hlive : (liveRev t.log.index key t.reading).isSome = true)
    (hfuture : t.reading.toNat < stamp.ms)
    (h : ends (q.serve P text t.reading.toNat key) t = some (true, t')) :
    q.leaves.Shows key (q.duration t.reading.toNat) t t' := by
  have hexpire {d : Nat} {r : Except EngineError Bool}
    (hrun : ends (expire P key d).run t = some (r, t'))
      (hr : r = .ok true) : Expires key d t t' := (wlp_expire d _ _ hrun true hr).2 rfl
  have hgetex {d : Nat} {r : Except EngineError (Option (Entry J))} {e : Entry J}
      (hrun : ends (ShardStore.getex P key (some (.setTtl d))).run t = some (r, t'))
      (hr : r = .ok (some e)) :
      Expires key d t t' := (wlp_getex hlive d _ _ hrun _ hr).2
  cases q with
  | set value args hargs => exact set_shows hargs h
  | getex =>
    obtain ⟨reply, hreply, hok⟩ := of_ends_return h
    obtain ⟨r, hrun, rfl⟩ := of_ends_return hreply
    match r with
    | .error _ | .ok none => cases hok
    | .ok (some e) => exact hgetex hrun rfl
  | expireAt =>
    obtain ⟨reply, hreply, hok⟩ := of_ends_return h
    rw [stamp.expireAt_eq, expireAtBy, decide_eq_false (Nat.not_le.mpr hfuture)] at hreply
    obtain ⟨r, hrun, rfl⟩ := of_ends_return hreply
    match r with
    | .error _ | .ok false => cases hok
    | .ok true => exact hexpire hrun rfl
  | patch parts hquery =>
    obtain ⟨reply, hreply, hok⟩ := of_ends_return h
    have hop :
        parseTtlOp t.reading.toNat parts.query
        = some (.setTtl ((patch parts hquery).duration t.reading.toNat)) := by
      rw [parseTtlOp, hquery]
      cases stamp <;> rfl
    rw [handlePatch, hop] at hreply
    split at hreply
    · obtain ⟨r, hrun, rfl⟩ := of_ends_return hreply
      match r with
      | .error _ | .ok none => cases hok
      | .ok (some e) => exact hgetex hrun rfl
    · obtain ⟨r, hrun, rfl⟩ := of_ends_return hreply
      match r with
      | .error _ | .ok false => cases hok
      | .ok true => exact hexpire hrun rfl

theorem ms_lt_of_precise {q : AtRequest stamp} (h : q.precise = true) : stamp.ms < 2 ^ 64 := by
  cases stamp with
  | millis ts => exact ts.toNat_lt
  | secs ts => cases q <;> cases h

/-- What it comes to: the clock counts twice what it shows below a second. -/
theorem reading_add_duration (q : AtRequest stamp) {now : Nat} (hfuture : now < stamp.ms) :
    now + q.duration now = stamp.ms + if q.precise then 0 else now % 1000 := by
  cases q <;> cases stamp <;> simp [duration, precise, ttlDurationFromSpec, Stamp.spec, Stamp.ms]
    at hfuture ⊢ <;> omega

end AtRequest

variable {J : Serde}

/-- A time to come is met to the millisecond by a request that leaves the expiry it asks for
exactly if the request counts in milliseconds throughout or the clock stands at a whole second; by
one that keeps the expiry before if that is the time; by one that leaves none never. The request
fails only if there is no such expiry. `EXPIREAT` tells whether the key was live exactly if the
time is to come or the key was live; after a time that is past the key is gone. -/
theorem absolute_expiry_iff (P : Prims) (text : Texts) (key : Bytes) (t : ShardStore J)
    (stamp : Stamp) :
    (t.reading.toNat < stamp.ms → (liveRev t.log.index key t.reading).isSome = true →
      ∀ (q : AtRequest stamp) done t', ends (q.serve P text t.reading.toNat key) t
        = some (done, t') →
        (done = false → q.leaves = .asked ∧ 2 ^ 64 ≤ t.reading.toNat + q.duration t.reading.toNat) →
        (done = true ∧ (t'.log.index.ttl key).map UInt64.toNat = some stamp.ms
          ↔ q.leaves = .asked ∧ (q.precise = true ∨ t.reading.toNat % 1000 = 0 ∧ stamp.ms < 2 ^ 64)
            ∨ q.leaves = .kept ∧ (t.log.index.ttl key).map UInt64.toNat = some stamp.ms))
      ∧ ∀ reply t', ends (stamp.expireAt P text t.reading.toNat key) t
      = some (reply, t') → reply.Fine →
        ((reply = .integer 1 ↔ (liveRev t.log.index key t.reading).isSome = true)
            ↔ t.reading.toNat < stamp.ms ∨ (liveRev t.log.index key t.reading).isSome = true)
          ∧ (stamp.ms ≤ t.reading.toNat → t'.log.index.get key = none) := by
  constructor
  · intro hfuture hlive q done t' hend hfails
    have hsum := q.reading_add_duration hfuture
    cases done with
    | true =>
      have hshows := AtRequest.serve_shows hlive hfuture hend
      cases hleaves : q.leaves with
      | asked =>
        rw [hleaves] at hshows
        obtain ⟨x, hvalid, httl⟩ := hshows
        have hx := validateTtl_ok hvalid
        have hlt := x.toNat_lt
        simp only [httl, map_some, Option.some.injEq, true_and, reduceCtorEq, false_and, or_false]
        cases hprecise : q.precise with
        | true =>
          rw [hprecise, if_pos rfl] at hsum
          exact iff_of_true (hx.trans hsum) (.inl rfl)
        | false =>
          simp only [hprecise, Bool.false_eq_true, if_false, false_or] at hsum ⊢
          omega
      | kept =>
        rw [hleaves] at hshows
        simp only [show t'.log.index.ttl key = _ from hshows, reduceCtorEq, true_and,
          false_and, false_or]
      | none =>
        rw [hleaves] at hshows
        simp [show t'.log.index.ttl key = none from hshows]
    | false =>
      obtain ⟨hasked, hover⟩ := hfails rfl
      simp only [hasked, Bool.false_eq_true, reduceCtorEq, false_and, true_and, or_false, false_iff]
      rintro (hprecise | ⟨hwhole, hlt⟩)
      · have hlt := AtRequest.ms_lt_of_precise hprecise
        rw [hprecise, if_pos rfl] at hsum
        omega
      · rw [hwhole, ite_self] at hsum
        omega
  · intro reply t' hend hfine
    rw [stamp.expireAt_eq] at hend
    obtain hpast | hfuture := le_or_gt stamp.ms t.reading.toNat
    · rw [expireAtBy, decide_eq_true hpast, if_pos rfl] at hend
      obtain ⟨r, hrun, rfl⟩ := of_ends_return hend
      cases r with
      | error e => cases hfine
      | ok n =>
        refine ⟨?_, fun _ => del_gone hrun⟩
        simp only [true_iff, Nat.not_lt.mpr hpast, false_or]
    · rw [expireAtBy, decide_eq_false (Nat.not_le.mpr hfuture)] at hend
      obtain ⟨r, hrun, rfl⟩ := of_ends_return hend
      refine ⟨iff_of_true ?_ (.inl hfuture), fun hpast => absurd hfuture (Nat.not_lt.mpr hpast)⟩
      cases r with
      | error e => cases hfine
      | ok b =>
        rw [← (wlp_expire _ _ _ hrun b rfl).1]
        cases b <;> simp

/-- At 1.5 s a key is to expire at 10 s, by `EXPIREAT`, by `ttl_at_ms` and by `SET` with `PXAT` and
`GET`; and `EXPIREAT` reports on a key that is not there. -/
theorem expiry_off_by_half_a_second :
    (do
      let t ← freshStore fun _ => 1500
      let (_, t) ← ends
        (dispatchSet realPrims (fun _ => "") 1500 [0x61] [1] ⟨none, .always, false, false, none⟩) t
      let (_, t₁) ← ends (dispatchExpireAt realPrims (fun _ => "") 1500 [0x61] 10) t
      let (_, t₂) ← ends
        (handlePatch realPrims (fun _ => "") 1500 [0x61] ⟨fun _ => [], ascii "ttl_at_ms=10000"⟩) t
      let (_, t₃) ← ends (dispatchSet realPrims (fun _ => "") 1500 [0x61] [2]
        ⟨some (.unixMillis 10000), .always, true, false, none⟩) t
      let (reply, _) ← ends (dispatchExpireAt realPrims (fun _ => "") 1500 [0x62] 1) t
      return (t₁.log.index.ttl [0x61], t₂.log.index.ttl [0x61], t₃.log.index.ttl [0x61], reply))
      = some (some 10500, some 10500, none, .integer 1) := by
  decide +kernel

end Server.Http

end BeyondKv
