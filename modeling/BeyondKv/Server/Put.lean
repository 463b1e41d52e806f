/-
# Writing one key

The handlers that write a single key: HTTP `PUT` and `DELETE`, and the RESP command `SET`. Each
turns the options of its request into one call of the store, and the result of the call into a
reply. The helpers that read a number from a header give up silently: a number that cannot be
read is a number that was not given.

Two things are said of them. A request with an `If-Match` header that is not a number is carried
out without a condition, so the header is honoured exactly if it names one revision
(`if_match_honoured_iff`). A write that is to keep the expiry of its key copies what the index
says of it, also of a key that has expired, and `setrev` and `getset` do not look at it at all
(`keepttl_exact_iff`).

Left out: the headers that show an entry in a reply, and the parser of RESP.
-/
import BeyondKv.Server.Dispatch
import BeyondKv.Server.Http
import BeyondKv.Writes

namespace BeyondKv.Server.Http

open Async ShardStore Option

/-! ## Requests -/

/-- The head of a request: the values of the headers by name, in their order, and the query. -/
structure Parts where
  headers : String → List Bytes
  query : Bytes

/-- `HeaderValue::to_str`: visible ASCII and tabs. -/
def toStr (v : Bytes) : Option Bytes := if v.all fun b => (32 ≤ b && b < 127) || b == 9
    then some v else none

namespace Parts

/-- The first value of a header, if it is a text. -/
def headerStr (parts : Parts) (name : String) : Option Bytes :=
  (parts.headers name).head?.bind toStr

def containsKey (parts : Parts) (name : String) : Bool := !(parts.headers name).isEmpty

def ifMatch (parts : Parts) : Option UInt64 := (parts.headerStr "if-match").bind parseU64

/-- `parse_ttl_from_request`: seconds, as a duration. -/
def ttl (parts : Parts) : Option Nat :=
  let headerTtl := (parts.headerStr "x-kv-ttl").bind parseU64
  (headerTtl.or ((queryParam parts.query (ascii "ttl")).bind parseU64)).map fun secs =>
  secs.toNat * 1000

def keepTtl (parts : Parts) : Bool := parts.containsKey "x-kv-keepttl"

def returnOld (parts : Parts) : Bool := parts.containsKey "x-kv-return-old"

def metadata (J : Serde) (parts : Parts) : Option J.Value :=
  ((parts.headerStr "x-kv-metadata").filter fun s => s.length ≤ 64 * 1024).bind J.fromSlice

def nx (parts : Parts) : Bool := decide (ascii "nx=1" <:+: parts.query)

def xx (parts : Parts) : Bool := decide (ascii "xx=1" <:+: parts.query)

def opts (J : Serde) (parts : Parts) : SetOptions J := ⟨parts.ttl, parts.metadata J, parts.keepTtl⟩

end Parts

/-- A reply, without the headers that show an entry. -/
inductive HttpReply (J : Serde) where
  /-- 204, with the new revision of a conditional write. -/
  | noContent (revision : Option UInt64)
  /-- 200. -/
  | old (e : Entry J)
  | error (e : HttpError)

def HttpReply.status {J : Serde} : HttpReply J → Nat
  | .noContent _ => 204
  | .old _ => 200
  | .error e => e.status

/-- How engine errors print. -/
abbrev Texts := EngineError → String

section handlers
variable {J : Serde} (P : Prims) (text : Texts)

def engineError (e : EngineError) : HttpReply J := .error (engineErrorResponse ⟨e, text e⟩)

def conflict (msg : String) : HttpReply J := .error (err 409 "conflict" msg)

def handlePut (key body : Bytes) (parts : Parts) : StoreTask J (HttpReply J) :=
  if parts.keepTtl && parts.ttl.isSome then
    return .error (err 400 "invalid_request" "x-kv-keepttl cannot be combined with a TTL option")
  else if parts.returnOld && (parts.nx || parts.xx || parts.ifMatch.isSome || parts.keepTtl) then
    return .error
      (err 400 "invalid_request"
        "x-kv-return-old cannot be combined with conditional writes or x-kv-keepttl")
  else if parts.returnOld then do
    return match ← (getset P key body).run with
      | .ok (some old) => .old old
      | .ok none => .noContent none
      | .error e => engineError text e
  else match parts.ifMatch with
    | some expectedRev => do
      return match ← (setrev P key body (parts.opts J) expectedRev).run with
        | .ok (some newRev) => .noContent (some newRev)
        | .ok none => conflict "revision mismatch"
        | .error e => engineError text e
    | none =>
      if parts.nx then do
        return match ← (setConditional P key body (parts.opts J) false).run with
          | .ok true => .noContent none
          | .ok false => conflict "key already exists"
          | .error e => engineError text e
      else if parts.xx then do
        return match ← (setConditional P key body (parts.opts J) true).run with
          | .ok true => .noContent none
          | .ok false => conflict "key does not exist"
          | .error e => engineError text e
      else do
        return match ← (ShardStore.set P key body (parts.opts J)).run with
          | .ok () => .noContent none
          | .error e => engineError text e

def handleDelete (key : Bytes) (parts : Parts) : StoreTask J (HttpReply J) :=
  match parts.ifMatch with
  | some expectedRev => do
    return match ← (delrev P key expectedRev).run with
      | .ok (some ()) => .noContent none
      | .ok none => conflict "revision mismatch"
      | .error e => engineError text e
  | none =>
    if parts.returnOld then do
      return match ← (getdel P key).run with
        | .ok (some e) => .old e
        | .ok none => .noContent none
        | .error e => engineError text e
    else do
      return match ← (del P [key]).run with
        | .ok _ => .noContent none
        | .error e => engineError text e

end handlers

/-! ## If-Match -/

/-- A number is a text. -/
theorem toStr_bind_parseU64 (v : Bytes) : (toStr v).bind parseU64 = parseU64 v := by
  have hdigits {s : Bytes} {n : Nat} (h : parseDigits s = some n) :
      ∀ b ∈ s, ((32 ≤ b && b < 127) || b == 9) = true := by
    intro b hb
    have hdigit : isDigit b = true := by
      by_contra hno
      have hall : ¬ s.all isDigit := fun hall => hno (List.all_eq_true.mp hall b hb)
      rw [parseDigits, if_pos (.inr hall)] at h
      cases h
    revert hdigit
    have hall : ∀ b : UInt8, isDigit b = true → ((32 ≤ b && b < 127) || b == 9) = true := by
      decide +kernel
    exact hall b
  rw [toStr]
  by_cases hv : (v.all fun b => (32 ≤ b && b < 127) || b == 9) = true
  · rw [if_pos hv]
    rfl
  · rw [if_neg hv]
    cases hparse : parseU64 v with
    | none => rfl
    | some rev =>
      refine absurd (List.all_eq_true.mpr ?_) hv
      unfold parseU64 at hparse
      dsimp only at hparse
      split at hparse
      · obtain ⟨n, hn, -⟩ := bind_eq_some_iff.mp hparse
        intro b hb
        obtain rfl | hb := List.mem_cons.mp hb
        · rfl
        · exact hdigits hn b hb
      · obtain ⟨n, hn, -⟩ := bind_eq_some_iff.mp hparse
        exact hdigits hn

inductive Verb where
  | put (body : Bytes)
  | delete

def Verb.handle {J : Serde} (P : Prims) (text : Texts) (key : Bytes) (parts : Parts) :
    Verb → StoreTask J (HttpReply J)
  | .put body => handlePut P text key body parts
  | .delete => handleDelete P text key parts

/-- The index says something else of the key. -/
def Touched (key : Bytes) (i j : NsIndex) : Prop :=
  j.get key ≠ i.get key ∨ j.ttl key ≠ i.ttl key ∨ j.valsep key ≠ i.valsep key

theorem not_touched (key : Bytes) (i : NsIndex) : ¬ Touched key i i := by simp [Touched]

section ifMatch
variable {J : Serde} {P : Prims} {text : Texts} {key : Bytes} {parts : Parts} {t t' : ShardStore J}

theorem ends_return {α β : Type} (p : StoreTask J α) (f : α → β) (t : ShardStore J) :
    ends (do return f (← p)) t = (ends p t).map fun x => (f x.1, x.2) := by
  rw [ends_seq, map_eq_bind]
  rfl

theorem of_ends_return {α β : Type} {p : StoreTask J α} {f : α → β} {b : β}
    (h : ends (do return f (← p)) t = some (b, t')) : ∃ a, ends p t = some (a, t') ∧ f a = b := by
  rw [ends_return] at h
  obtain ⟨⟨a, t₁⟩, hend, heq⟩ := map_eq_some_iff.mp h
  cases heq
  exact ⟨a, hend, rfl⟩

/-- With a revision to match, nothing changes unless the key has it. -/
theorem handle_ifMatch {rev : UInt64} (hmatch : parts.ifMatch = some rev) {verb : Verb}
    {reply : HttpReply J}
    (h : ends (verb.handle P text key parts) t = some (reply, t')) :
    t'.log.index = t.log.index ∨ liveRev t.log.index key t.reading = some rev := by
  cases verb with
  | delete =>
    rw [Verb.handle, handleDelete, hmatch] at h
    obtain ⟨r, hend, -⟩ := of_ends_return h
    exact delrev_index hend
  | put body =>
    rw [Verb.handle, handlePut, hmatch] at h
    dsimp only at h
    split_ifs at h with hkeep hold hold'
    · cases h
      exact .inl rfl
    · cases h
      exact .inl rfl
    · simp [hold'] at hold
    · obtain ⟨r, hend, -⟩ := of_ends_return h
      have hcheck {x : Option UInt64} : (WriteCondition.revision rev).check x = true →
        x = some rev := of_decide_eq_true
      cases setrev_written hend with
      | refused hindex => exact .inl hindex
      | made hcond => exact .inr (hcheck hcond)
      | failed e hfailed => exact hfailed.imp id hcheck

/-- Without one, a delete deletes. -/
theorem handleDelete_plain (text : Texts) (hmatch : parts.ifMatch = none)
    (hold : parts.returnOld = false) (hidle : t.log.Idle P key) :
    ∃ reply t', ends (handleDelete P text key parts) t = some (reply, t')
        ∧ t'.log.index = (t.log.index.remove key).2 := by
  obtain ⟨r, t', hend, hindex⟩ := del_ends hidle
  simp only [handleDelete, hmatch, hold, Bool.false_eq_true, if_false, ends_return, hend, map_some]
  exact ⟨_, t', rfl, hindex⟩

theorem handleDelete_match (text : Texts) {rev : UInt64} (hmatch : parts.ifMatch = some rev)
    (hidle : t.log.Idle P key)
    (hrev : liveRev t.log.index key t.reading = some rev) :
    ∃ reply t', ends (handleDelete P text key parts) t = some (reply, t')
        ∧ t'.log.index = (t.log.index.remove key).2 := by
  obtain ⟨r, t', hend, hindex⟩ := delrev_ends hidle hrev
  simp only [handleDelete, hmatch, ends_return, hend, map_some]
  exact ⟨_, t', rfl, hindex⟩

end ifMatch

/-- A log that was opened on nothing, with this index. -/
def bareLog (index : NsIndex) : NsState where
  clock _ := 100
  readings := 0
  fault _ := none
  tick := 0
  disk := Disk.empty
  ring := []
  config := .default
  index := index
  sealed := ∅
  level := ∅
  active := ⟨0, 0⟩
  cells _ := ⟨0, false⟩
  unsyncedBytes := 0
  lastTstamp := 0
  reclaimInProgress := false
  rotateInProgress := false
  frozen := false
  inFlightWrites := 0
  writeStripes _ := false
  refs := ∅
  pendingDelete := []
  fileLocks _ := false

def bareStore (J : Serde) (index : NsIndex) : ShardStore J := ⟨[], bareLog index, .new 0, 0, 0⟩

/-- One key, with a revision and no expiry. -/
def oneRow (key : Bytes) (rev : UInt64) : NsIndex := NsIndex.empty.insert key ⟨0, 0, 0, rev⟩ none

theorem liveRev_oneRow (key : Bytes) (rev now : UInt64) :
    liveRev (oneRow key rev) key now = some rev := by
  simp [liveRev, oneRow, NsIndex.isExpired]

theorem touched_remove (key : Bytes) (rev : UInt64) :
    Touched key (oneRow key rev) ((oneRow key rev).remove key).2 := by
  refine .inl ?_
  simp [oneRow]

/-- Whether an `If-Match` header is honoured, by its values: no request changes its key unless each
of them is the decimal revision that the key had before. -/
theorem if_match_honoured_iff (J : Serde) (P : Prims) (text : Texts) (values : List Bytes) :
    (∀ (verb : Verb) (key : Bytes) (parts : Parts), parts.headers "if-match" = values →
      ∀ (t t' : ShardStore J) (reply : HttpReply J), ends (verb.handle P text key parts) t
        = some (reply, t') →
        Touched key t.log.index t'.log.index →
          ∀ v ∈ values, ∃ rev, parseU64 v = some rev ∧ liveRev t.log.index key t.reading = some rev)
      ↔ ∃ rev, ∀ v ∈ values, parseU64 v = some rev := by
  constructor
  · intro h
    cases values with
    | nil => exact ⟨0, nofun⟩
    | cons v values =>
      let parts : Parts := ⟨fun name => if name = "if-match" then v :: values else [], []⟩
      have hfirst : parts.ifMatch = parseU64 v := toStr_bind_parseU64 v
      have hidle (rev : UInt64) : (bareStore J (oneRow [] rev)).log.Idle P [] := ⟨rfl, rfl, rfl⟩
      cases hv : parseU64 v with
      | none =>
        obtain ⟨reply, t', hend, hindex⟩ := handleDelete_plain text (hfirst.trans hv) rfl (hidle 0)
        obtain ⟨rev, hrev, -⟩ :=
          h .delete [] parts rfl _ t' reply hend (hindex ▸ touched_remove [] 0) v
          (List.mem_cons_self ..)
        rw [hv] at hrev
        cases hrev
      | some rev =>
        refine ⟨rev, fun v' hv' => ?_⟩
        have hlive := liveRev_oneRow [] rev 100
        obtain ⟨reply, t', hend, hindex⟩ :=
          handleDelete_match text (hfirst.trans hv) (hidle rev) hlive
        obtain ⟨rev', hparse, hlive'⟩ :=
          h .delete [] parts rfl _ t' reply hend (hindex ▸ touched_remove [] rev) v' hv'
        exact hparse.trans (hlive'.symm.trans hlive)
  · rintro ⟨rev, hvalues⟩ verb key parts hparts t t' reply hend htouched v hv
    have hmatch : parts.ifMatch = some rev := by
      cases values with
      | nil => cases hv
      | cons v₀ values =>
        rw [Parts.ifMatch, Parts.headerStr, hparts]
        exact (toStr_bind_parseU64 v₀).trans (hvalues v₀ (List.mem_cons_self ..))
    obtain hindex | hlive := handle_ifMatch hmatch hend
    · exact absurd (hindex ▸ htouched) (not_touched key _)
    · exact ⟨rev, hvalues v hv, hlive⟩

/-- A store over a log that was opened on an empty directory. -/
def freshStore (clock : Nat → UInt64) : Option (ShardStore noJson) :=
  (openLog realPrims .default clock (fun _ => none) Disk.empty).toOption.map fun log =>
    ⟨[], log, .new 1000, 0, 0⟩

/-- A key has the revision 100. A put with the header `If-Match: "99"`, in quotes, and a delete with
`If-Match: *` are carried out. -/
theorem if_match_ignored :
    let request (values : List Bytes) : Parts :=
      ⟨fun name => if name = "if-match" then values else [], []⟩
    let after (verb : Verb) (v : Bytes) : Option (Nat × Option UInt64 × Option UInt64) := do
      let t ← freshStore fun _ => 100
      let (_, t) ← ends (handlePut realPrims (fun _ => "") [0x61] [1] (request [])) t
      let (reply, t') ← ends (verb.handle realPrims (fun _ => "") [0x61] (request [v])) t
      return (reply.status, liveRev t.log.index [0x61] t.reading,
        liveRev t'.log.index [0x61] t.reading)
    after (.put [2]) (ascii "\"99\"") = some (204, some 100, some 101)
      ∧ after .delete (ascii "*") = some (204, some 100, none)
      ∧ after (.put [2]) (ascii "99") = some (409, some 100, some 100) := by
  decide +kernel

/-! ## Keeping the expiry -/

inductive SetTtl where
  | seconds (s : UInt64)
  | millis (ms : UInt64)
  | unixSecs (ts : UInt64)
  | unixMillis (ts : UInt64)

inductive SetCondition where
  | always
  | nx
  | xx
  | rev (expected : UInt64)

structure SetArgs where
  ttl : Option SetTtl
  condition : SetCondition
  get : Bool
  keepTtl : Bool
  metaBytes : Option Bytes

/-- As milliseconds; `unixMs` is the time of the system. -/
def ttlDurationFromSpec (unixMs : Nat) : SetTtl → Nat
  | .seconds s => s.toNat * 1000
  | .millis ms => ms.toNat
  | .unixSecs ts => (ts.toNat - unixMs / 1000) * 1000
  | .unixMillis ts => ts.toNat - unixMs

def setOptsFromArgs (J : Serde) (unixMs : Nat) (args : SetArgs) : SetOptions J :=
  ⟨args.ttl.map (ttlDurationFromSpec unixMs), args.metaBytes.bind J.fromSlice, args.keepTtl⟩

inductive RespReply where
  | ok
  | nil
  | integer (n : Int)
  | bulk (b : Bytes)
  | error (kind msg : String)
  deriving DecidableEq

/-- `as i64`. -/
def toI64 (n : UInt64) : Int := Int.bmod n.toNat (2 ^ 64)

/-- `SET`. -/
def dispatchSet {J : Serde} (P : Prims) (text : Texts) (unixMs : Nat) (key value : Bytes)
    (args : SetArgs) :
    StoreTask J RespReply :=
  let opts := setOptsFromArgs J unixMs args
  match args.condition with
  | .nx => do
    return match ← (setConditional P key value opts false).run with
      | .ok true => .ok
      | .ok false => .nil
      | .error e => .error "ERR" (text e)
  | .xx => do
    return match ← (setConditional P key value opts true).run with
      | .ok true => .ok
      | .ok false => .nil
      | .error e => .error "ERR" (text e)
  | .rev expected => do
    return match ← (setrev P key value opts expected).run with
      | .ok (some newRev) => .integer (toI64 newRev)
      | .ok none => .error "CONFLICT" "revision mismatch"
      | .error e => .error "ERR" (text e)
  | .always =>
    if args.get then do
      return match ← (getset P key value).run with
        | .ok (some old) => .bulk old.value
        | .ok none => .nil
        | .error e => .error "ERR" (text e)
    else do
      return match ← (ShardStore.set P key value opts).run with
        | .ok () => .ok
        | .error e => .error "ERR" (text e)

/-- The call of the store that a write makes. -/
inductive WriteCall where
  | set
  | setnx
  | setxx
  | setrev (expected : UInt64)
  | getset

/-- A request that writes a key, by either protocol. -/
inductive SetRequest where
  | resp (unixMs : Nat) (args : SetArgs)
  | http (parts : Parts)

namespace SetRequest
variable {J : Serde}

def keepTtl : SetRequest → Bool
  | resp _ args => args.keepTtl
  | http parts => parts.keepTtl

def opts (J : Serde) : SetRequest → SetOptions J
  | resp unixMs args => setOptsFromArgs J unixMs args
  | http parts => parts.opts J

def call : SetRequest → WriteCall
  | resp _ args =>
    match args.condition with
    | .nx => .setnx
    | .xx => .setxx
    | .rev expected => .setrev expected
    | .always => if args.get then .getset else .set
  | http parts =>
    if parts.returnOld then .getset
    else match parts.ifMatch with
      | some expected => .setrev expected
      | none => if parts.nx then .setnx else if parts.xx then .setxx else .set

/-- Whether the reply to `SET` says that the value was set. -/
def made (args : SetArgs) (reply : RespReply) : Bool :=
  match args.condition, reply with
  | _, .error _ _ => false
  | .always, _ => true
  | _, .nil => false
  | _, _ => true

/-- Carry the request out: whether the client is told that the value was set. -/
def serve (P : Prims) (text : Texts) (key value : Bytes) : SetRequest → StoreTask J Bool
  | resp unixMs args => do return made args (← dispatchSet P text unixMs key value args)
  | http parts => do return decide ((← handlePut P text key value parts).status < 300)

end SetRequest

section keepTtl
variable {J : Serde} {P : Prims} {text : Texts} {key value : Bytes} {t t' : ShardStore J}

/-- The expiry of a key that is live. -/
def liveExpiry (i : NsIndex) (key : Bytes) (now : UInt64) : Option UInt64 :=
  if (liveRev i key now).isSome then i.ttl key else none

/-- What a call that has written says about the index. -/
def WriteCall.Wrote (key : Bytes) (opts : SetOptions J) (t t' : ShardStore J) : WriteCall → Prop
  | .setrev expected => liveRev t.log.index key t.reading = some expected ∧
      ∃ x rev, expiry t.log.index key { opts with keepTtl := false } t.reading = .ok x
        ∧ Inserts key x rev t.log.index t'.log.index
  | .getset => ∃ i rev, Inserts key none rev i t'.log.index
  | _ =>
    ∃ x rev, expiry t.log.index key opts t.reading = .ok x
      ∧ Inserts key x rev t.log.index t'.log.index

theorem setConditional_true {requireLive : Bool} {opts : SetOptions J}
    (h : ends (setConditional P key value opts requireLive).run t = some (.ok true, t')) :
    ∃ x rev, expiry t.log.index key opts t.reading = .ok x
        ∧ Inserts key x rev t.log.index t'.log.index := by
  generalize hr : (Except.ok true : Except EngineError Bool) = r at h
  cases setConditional_written h with
  | refused => cases hr
  | made _ hx hinserts => exact ⟨_, _, hx, hinserts⟩
  | failed => cases hr

theorem setrev_some {opts : SetOptions J} {expected rev : UInt64}
    (h : ends (setrev P key value opts expected).run t = some (.ok (some rev), t')) :
    (WriteCall.setrev expected).Wrote key opts t t' := by
  generalize hr : (Except.ok (some rev) : Except EngineError (Option UInt64)) = r at h
  cases setrev_written h with
  | refused => cases hr
  | made hcond hx hinserts => exact ⟨of_decide_eq_true hcond, _, _, hx, hinserts⟩
  | failed => cases hr

theorem SetRequest.wrote_resp {unixMs : Nat} {args : SetArgs}
    (h : ends ((SetRequest.resp unixMs args).serve P text key value) t = some (true, t')) :
    (SetRequest.resp unixMs args).call.Wrote key (setOptsFromArgs J unixMs args) t t' := by
  obtain ⟨reply, hreply, hmade⟩ := of_ends_return h
  unfold SetRequest.made at hmade
  rw [SetRequest.call]
  rw [dispatchSet] at hreply
  cases hcond : args.condition with
  | nx | xx =>
    rw [hcond] at hreply hmade
    obtain ⟨r, hend, rfl⟩ := of_ends_return hreply
    obtain e | (_ | _) := r
    · cases hmade
    · cases hmade
    · exact setConditional_true hend
  | rev expected =>
    rw [hcond] at hreply hmade
    obtain ⟨r, hend, rfl⟩ := of_ends_return hreply
    obtain e | (_ | rev) := r
    · cases hmade
    · cases hmade
    · exact setrev_some hend
  | always =>
    rw [hcond] at hreply hmade
    by_cases hget : args.get = true
    · rw [if_pos hget] at hreply ⊢
      obtain ⟨r, hend, rfl⟩ := of_ends_return hreply
      obtain e | old := r
      · cases hmade
      · exact getset_ok hend
    · rw [if_neg hget] at hreply ⊢
      obtain ⟨r, hend, rfl⟩ := of_ends_return hreply
      obtain e | _ := r
      · cases hmade
      · exact set_ok hend

theorem engineErrorResponse_status (e : Failure) : 300 ≤ (engineErrorResponse e).status := by
  unfold engineErrorResponse
  split <;> simp [err, internalError]

theorem SetRequest.wrote_http {parts : Parts}
    (h : ends ((SetRequest.http parts).serve P text key value) t = some (true, t')) :
    (SetRequest.http parts).call.Wrote key (parts.opts J) t t' := by
  obtain ⟨reply, hreply, hmade⟩ := of_ends_return h
  have hfailed (e : EngineError) :
    ¬ decide ((engineError text e : HttpReply J).status < 300) = true :=
    fun h => absurd (engineErrorResponse_status _) (Nat.not_le.mpr (of_decide_eq_true h))
  rw [SetRequest.call]
  unfold handlePut at hreply
  by_cases hkeep : (parts.keepTtl && parts.ttl.isSome) = true
  · rw [if_pos hkeep] at hreply
    cases hreply
    cases hmade
  rw [if_neg hkeep] at hreply
  by_cases hclash :
    (parts.returnOld && (parts.nx || parts.xx || parts.ifMatch.isSome || parts.keepTtl)) = true
  · rw [if_pos hclash] at hreply
    cases hreply
    cases hmade
  rw [if_neg hclash] at hreply
  by_cases hold : parts.returnOld = true
  · rw [if_pos hold] at hreply ⊢
    obtain ⟨r, hend, rfl⟩ := of_ends_return hreply
    obtain e | old := r
    · exact absurd hmade (hfailed e)
    · exact getset_ok hend
  rw [if_neg hold] at hreply ⊢
  cases hmatch : parts.ifMatch with
  | some expected =>
    rw [hmatch] at hreply
    obtain ⟨r, hend, rfl⟩ := of_ends_return hreply
    obtain e | (_ | rev) := r
    · exact absurd hmade (hfailed e)
    · cases hmade
    · exact setrev_some hend
  | none =>
    rw [hmatch] at hreply
    dsimp only at hreply ⊢
    by_cases hnx : parts.nx = true
    · rw [if_pos hnx] at hreply ⊢
      obtain ⟨r, hend, rfl⟩ := of_ends_return hreply
      obtain e | (_ | _) := r
      · exact absurd hmade (hfailed e)
      · cases hmade
      · exact setConditional_true hend
    rw [if_neg hnx] at hreply ⊢
    by_cases hxx : parts.xx = true
    · rw [if_pos hxx] at hreply ⊢
      obtain ⟨r, hend, rfl⟩ := of_ends_return hreply
      obtain e | (_ | _) := r
      · exact absurd hmade (hfailed e)
      · cases hmade
      · exact setConditional_true hend
    rw [if_neg hxx] at hreply ⊢
    obtain ⟨r, hend, rfl⟩ := of_ends_return hreply
    obtain e | _ := r
    · exact absurd hmade (hfailed e)
    · exact set_ok hend

theorem SetRequest.wrote {q : SetRequest}
    (h : ends (q.serve P text key value) t = some (true, t')) :
    q.call.Wrote key (q.opts J) t t' := by
  cases q with
  | resp unixMs args => exact wrote_resp h
  | http parts => exact wrote_http h

/-- When the write keeps the expiry of a live key and leaves no other. -/
def WriteCall.Keeps (opts : SetOptions J) (i : NsIndex) (key : Bytes) (now : UInt64) :
    WriteCall → Prop
  | .setrev _ => expiry i key { opts with keepTtl := false } now = .ok (i.ttl key)
  | .getset => liveExpiry i key now = none
  | _ => (liveRev i key now).isSome ∨ i.ttl key = none

theorem liveExpiry_notPast (i : NsIndex) (key : Bytes) (now : UInt64) :
    isPast (liveExpiry i key now) now = false := by
  by_cases hlive : (liveRev i key now).isSome
  · rw [liveExpiry, if_pos hlive]
    rw [liveRev] at hlive
    split_ifs at hlive with hexpired
    · cases hlive
    · exact Bool.eq_false_iff.mpr hexpired
  · rw [liveExpiry, if_neg hlive]
    rfl

/-- A write with KEEPTTL that succeeds keeps the expiry of a live key, leaves none to any other, and
leaves the key live, exactly under `Keeps`. -/
theorem keepttl_exact_iff (P : Prims) (text : Texts) {q : SetRequest} (hkeep : q.keepTtl = true)
    {key value : Bytes}
    {t t' : ShardStore J} (h : ends (q.serve P text key value) t = some (true, t')) :
    (t'.log.index.ttl key = liveExpiry t.log.index key t.reading
      ∧ (liveRev t'.log.index key t.reading).isSome)
      ↔ q.call.Keeps (q.opts J) t.log.index key t.reading := by
  have hopts : (q.opts J).keepTtl = true := by cases q <;> exact hkeep
  have hwrote := SetRequest.wrote h
  -- what it comes to: the expiry that was given is the live one
  have hgiven {x : Option UInt64} {rev : UInt64} {i : NsIndex}
    (hinserts : Inserts key x rev i t'.log.index) :
      (t'.log.index.ttl key = liveExpiry t.log.index key t.reading
        ∧ (liveRev t'.log.index key t.reading).isSome)
        ↔ x = liveExpiry t.log.index key t.reading := by
    obtain ⟨httl, hlive⟩ := hinserts.shows t.reading
    rw [httl, hlive]
    refine and_iff_left_of_imp ?_
    rintro rfl
    rw [liveExpiry_notPast]
    rfl
  have hcopied (hw : ∃ x rev, expiry t.log.index key (q.opts J) t.reading = .ok x
      ∧ Inserts key x rev t.log.index t'.log.index) :
      (t'.log.index.ttl key = liveExpiry t.log.index key t.reading
        ∧ (liveRev t'.log.index key t.reading).isSome)
        ↔ (liveRev t.log.index key t.reading).isSome ∨ t.log.index.ttl key = none := by
    obtain ⟨x, rev, hx, hinserts⟩ := hw
    rw [expiry, if_pos hopts] at hx
    cases hx
    rw [hgiven hinserts, liveExpiry]
    by_cases hlive : (liveRev t.log.index key t.reading).isSome
    · simp [hlive]
    · simp [hlive]
  cases hcall : q.call with
  | set | setnx | setxx =>
    rw [hcall] at hwrote
    exact hcopied hwrote
  | setrev expected =>
    rw [hcall] at hwrote
    obtain ⟨hlive, x, rev, hx, hinserts⟩ := hwrote
    rw [hgiven hinserts, WriteCall.Keeps, hx, liveExpiry, hlive]
    simp
  | getset =>
    rw [hcall] at hwrote
    obtain ⟨i, rev, hinserts⟩ := hwrote
    rw [hgiven hinserts, WriteCall.Keeps]
    exact eq_comm

end keepTtl

/-- `SET a <value>`, with an expiry in so many milliseconds. -/
def setFor (ms : Option UInt64) (condition : SetCondition) (keepTtl : Bool) : SetRequest :=
  .resp 0 ⟨ms.map .millis, condition, false, keepTtl, none⟩

/-- Two writes of one key, the first with an expiry in 50 ms. -/
def setTwice (clock : Nat → UInt64) (second : SetRequest) :
    Option (ShardStore noJson × Bool × ShardStore noJson) := do
  let t ← freshStore clock
  let (_, t) ← ends ((setFor (some 50) .always false).serve realPrims (fun _ => "") [0x61] [1]) t
  let (made, t') ← ends (second.serve realPrims (fun _ => "") [0x61] [2]) t
  return (t, made, t')

/-- The second write comes in time: the expiry is kept. -/
theorem keepttl_exact_in_time :
    ∃ t t' :
      ShardStore noJson, ends ((setFor none .xx true).serve realPrims (fun _ => "") [0x61] [2]) t
      = some (true, t')
      ∧ t.log.index.ttl [0x61] = some 150
      ∧ t'.log.index.ttl [0x61] = liveExpiry t.log.index [0x61] t.reading
      ∧ (liveRev t'.log.index [0x61] t.reading).isSome := by
  have hrun : (setTwice (fun _ => 100) (setFor none .xx true)).map
      (fun x =>
        (x.1.log.index.ttl [0x61], (liveRev x.1.log.index [0x61] x.1.reading).isSome, x.2.1)) =
        some (some 150, true, true) := by decide +kernel
  obtain ⟨⟨t, made, t'⟩, htwice, heq⟩ := map_eq_some_iff.mp hrun
  obtain ⟨httl, hlive, hmade⟩ : t.log.index.ttl [0x61] = some 150
    ∧ (liveRev t.log.index [0x61] t.reading).isSome = true
      ∧ made = true := by simpa using heq
  subst hmade
  rw [setTwice] at htwice
  obtain ⟨t₀, -, htwice⟩ := bind_eq_some_iff.mp htwice
  obtain ⟨⟨_, t₁⟩, -, htwice⟩ := bind_eq_some_iff.mp htwice
  obtain ⟨⟨made, t₂⟩, hend, hret⟩ := bind_eq_some_iff.mp htwice
  cases hret
  exact ⟨t, t', hend, httl, (keepttl_exact_iff realPrims _ rfl hend).mpr (.inl hlive)⟩

/-- The clock passes the expiry before the second write: the write gets it all the same, and the
value cannot be read. With a revision to match, the expiry of a live key is lost, in both
protocols. -/
theorem keepttl_not_exact :
    let shows (clock : Nat → UInt64) (second : SetRequest) :
        Option (Bool × Option UInt64 × Option UInt64 × Bool) := do
      let (t, made, t') ← setTwice clock second
      let (found, _) ← ends (ShardStore.get realPrims [0x61]).run t'
      return (made, t.log.index.ttl [0x61], t'.log.index.ttl [0x61], found matches .ok (some _))
    let put : SetRequest := .http ⟨fun name =>
      if name = "x-kv-keepttl" then [[]] else if name = "if-match" then [ascii "100"] else [], []⟩
    shows (fun n => if n < 2 then 100 else 200) (setFor none .always true)
      = some (true, some 150, some 150, false)
      ∧ shows (fun _ => 100) (setFor none (.rev 100) true) = some (true, some 150, none, true)
      ∧ shows (fun _ => 100) put = some (true, some 150, none, true) := by
  decide +kernel

end BeyondKv.Server.Http
