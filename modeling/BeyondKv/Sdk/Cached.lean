/-
# Cached functions and stale values

A cached function stores what its fetcher returns for `ttl + swr` seconds. In the last `swr` of
them a call answers with the stored value and starts a refresh of it. Whether a value is stale is
read off the milliseconds that are left of it, and the clients build an entry in four ways: RESP
asks for the remaining seconds only, alone and in a batch, HTTP takes both from the headers or
from the JSON of a batch. So no call over RESP ever refreshes anything.

`swr_refreshes_iff` says when a stale call does start its refresh: over HTTP, if the time stored
is a whole number of seconds and no fetch that has already failed is still in the way.
-/
import BeyondKv.Sdk.Lock

namespace BeyondKv.Sdk.Cached

variable {V : Type}

/-! ## Reading an entry -/

/-- What the server has for a key. -/
structure Held (V : Type) where
  value : V
  revision : ℕ
  remainingMs : Option ℕ

/-- The fields of an entry that a cached function reads, and those they are taken from. -/
structure Entry (V : Type) where
  value : V
  revision : ℕ
  ttl : Option ℕ
  ttlMs : Option ℕ

/-- The answers to `GET`, `REV` and `TTL`. -/
def pipelineReplies : Option (Held V) → Option V × ℤ × ℤ
  | none => (none, -2, -2)
  | some r => (some r.value, r.revision, r.remainingMs.elim (-1) fun ms => (ms / 1000 : ℕ))

/-- `_get`, and the `get` of a batch, over RESP. -/
def respEntry : Option V × ℤ × ℤ → Option (Entry V)
  | (none, _, _) => none
  | (some value, revision, ttlSecs) =>
    some ⟨value, if 0 < revision then revision.toNat else 0,
      if 0 ≤ ttlSecs then some ttlSecs.toNat else none, none⟩

/-- `x-kv-revision`, `x-kv-ttl` and `x-kv-ttl-ms`. -/
structure EntryHeaders where
  revision : Option ℕ
  ttl : Option ℕ
  ttlMs : Option ℕ

def entryHeaders (r : Held V) : EntryHeaders :=
  ⟨if 0 < r.revision then some r.revision else none, r.remainingMs.map (· / 1000), r.remainingMs⟩

def parseEntryHeaders (h : EntryHeaders) (value : V) : Entry V :=
  ⟨value, h.revision.getD 0, h.ttl, h.ttlMs⟩

/-- The numbers of a JSON object. -/
abbrev Fields := List (String × ℕ)

def batchFields (r : Held V) : Fields :=
  ("revision", r.revision) :: r.remainingMs.elim [] fun ms => [("ttl", ms / 1000), ("ttl_ms", ms)]

/-- `_x` becomes `X`. -/
def camelChars : List Char → List Char
  | '_' :: c :: cs =>
    if 'a' ≤ c ∧ c ≤ 'z' then c.toUpper :: camelChars cs else '_' :: camelChars (c :: cs)
  | c :: cs => c :: camelChars cs
  | [] => []

def camelKey (k : String) : String := String.ofList (camelChars k.toList)

def parseBatchEntry (fields : Fields) (value : V) : Entry V :=
  let r := fields.map fun f => (camelKey f.1, f.2)
  ⟨value, (r.lookup "revision").getD 0, r.lookup "ttl", r.lookup "ttlMs"⟩

/-- `get` of a client, alone or together with other operations of the same tick. -/
def get (B : Locks.Backend) (batched : Bool) (r : Option (Held V)) : Option (Entry V) :=
  match B, batched with
  | .resp, _ => respEntry (pipelineReplies r)
  | .http, false => r.map fun r => parseEntryHeaders (entryHeaders r) r.value
  | .http, true => r.map fun r => parseBatchEntry (batchFields r) r.value

theorem parseBatchEntry_ttlMs (r : Held V) :
    (parseBatchEntry (batchFields r) r.value).ttlMs = r.remainingMs := by
  have hrevision : camelKey "revision" = "revision" := by decide +kernel
  have httl : camelKey "ttl" = "ttl" := by decide +kernel
  have hms : camelKey "ttl_ms" = "ttlMs" := by decide +kernel
  rcases r with ⟨v, rev, _ | ms⟩ <;> simp [parseBatchEntry, batchFields, hrevision, httl,
    hms, List.lookup]

/-- Only HTTP tells the milliseconds. -/
theorem get_some (B : Locks.Backend) (batched : Bool) (r : Held V) :
    ∃ e, get B batched (some r) = some e ∧ e.value = r.value ∧
      e.ttlMs = if B = .http then r.remainingMs else none := by
  rcases B with _ | _
  · exact ⟨_, rfl, rfl, rfl⟩
  · rcases batched with _ | _
    · exact ⟨_, rfl, rfl, rfl⟩
    · exact ⟨_, rfl, rfl, parseBatchEntry_ttlMs r⟩

/-! ## Storing one -/

/-- The text of a number that the server reads as a `u64`. -/
def wholeSeconds (seconds : ℚ) : Option ℕ :=
  if seconds.den = 1 ∧ 0 ≤ seconds.num ∧ seconds.num < 2 ^ 64 then some seconds.num.toNat else none

theorem eq_of_wholeSeconds {seconds : ℚ} {n : ℕ} (h : wholeSeconds seconds = some n) :
    seconds = n := by
  unfold wholeSeconds at h
  split at h
  · next hw =>
    cases h
    have hnum : ((seconds.num.toNat : ℤ) : ℚ) = seconds := by
      rw [Int.toNat_of_nonneg hw.2.1]
      exact (Rat.den_eq_one_iff seconds).mp hw.1
    exact_mod_cast hnum.symm
  · cases h

/-- The expiry a value gets that is set for so many seconds, if the server takes it. A header that
is no whole number is passed over, and the value then never expires; anywhere else it is an error.
-/
def storedUntil (B : Locks.Backend) (batched : Bool) (seconds : ℚ) (now : ℕ) : Option (Option ℕ) :=
  match wholeSeconds seconds with
  | none => if B = .http ∧ batched = false then some none else none
  | some n =>
    if B = .resp ∧ n = 0 then none
    else if now + 1000 * n < 2 ^ 64 then some (some (now + 1000 * n)) else none

theorem storedUntil_eq_some {B : Locks.Backend} {batched : Bool} {seconds : ℚ} {now x : ℕ}
    (h : storedUntil B batched seconds now = some (some x)) : (x : ℚ) = now + 1000 * seconds := by
  unfold storedUntil at h
  split at h
  · split at h <;> cases h
  · next n hn =>
    split at h
    · cases h
    · split at h
      · cases h
        rw [eq_of_wholeSeconds hn]
        push_cast
        rfl
      · cases h

/-! ## The call -/

structure CacheOptions where
  ttl : Option ℚ
  swr : ℚ

def CacheOptions.storageTtl (o : CacheOptions) : Option ℚ := o.ttl.map (· + o.swr)

/-- The `set` of `fetchAndStore`. -/
def CacheOptions.set (o : CacheOptions) (B : Locks.Backend) (batched : Bool) (now : ℕ) :
    Option (Option ℕ) :=
  o.storageTtl.elim (some none) fun seconds => storedUntil B batched seconds now

/-- A fetch in the `inFlight` map. A fetcher that throws before its first `await` is done when its
promise gets there, and nothing takes that one out again. -/
inductive Fetch where
  | running
  | settled
  deriving DecidableEq

/-- Whether `fetchAndStore` calls the fetcher, and does not join a fetch of the map. -/
def fetches (inFlight : String → Option Fetch) (key : String) : Bool := (inFlight key).isNone

inductive Outcome (V : Type) where
  /-- The value is that of `fetchAndStore`, which calls the fetcher or not. -/
  | fetched (started : Bool)
  | stored (value : V) (started : Bool)
  deriving DecidableEq

/-- A call of the cached function, from the answer to its `get` on. -/
def handle (o : CacheOptions) (inFlight : String → Option Fetch) (key : String) :
    Option (Entry V) → Outcome V
  | none => .fetched (fetches inFlight key)
  | some e =>
    -- `fetchAndStore` is called here and not waited for
    .stored e.value
      (decide (0 < o.swr) && (e.ttlMs.any fun ms => decide ((ms : ℚ) ≤ o.swr * 1000)) &&
      fetches inFlight key)

/-- A call at `now`, for a value with this expiry. -/
def call (B : Locks.Backend) (batched : Bool) (o : CacheOptions) (inFlight : String → Option Fetch)
    (key : String)
    (value : V) (revision : ℕ) (expires : Option ℕ) (now : ℕ) : Outcome V :=
  handle o inFlight key (get B batched (some ⟨value, revision, expires.map (· - now)⟩))

theorem call_eq (B : Locks.Backend) (batched : Bool) (o : CacheOptions)
    (inFlight : String → Option Fetch) (key : String)
    (value : V) (revision : ℕ) (expires : Option ℕ) (now : ℕ) :
    call B batched o inFlight key value revision expires now
      = .stored value (decide (0 < o.swr ∧ B = .http ∧
      (∃ x, expires = some x ∧ ((x - now : ℕ) : ℚ) ≤ o.swr * 1000) ∧ inFlight key = none)) := by
  obtain ⟨e, he, hvalue, hms⟩ := get_some B batched ⟨value, revision, expires.map (· - now)⟩
  unfold call
  rw [he]
  dsimp only [handle, fetches] at hvalue ⊢
  rw [hvalue, hms]
  congr 1
  rw [Bool.eq_iff_iff]
  rcases B with _ | _ <;> rcases expires with _ | x <;> simp [and_assoc]

section swr
variable {B : Locks.Backend} {batchedSet : Bool} {ttl swr : ℚ} {stored now : ℕ} {expires : Option ℕ}

/-- What is left is less than `swr` once `ttl` is over, if anything says so. -/
theorem left_le_iff {x : ℕ}
    (hset : CacheOptions.set ⟨some ttl, swr⟩ B batchedSet stored = some (some x))
    (hlive : now < x) : ((x - now : ℕ) : ℚ) ≤ swr * 1000 ↔ ttl * 1000 ≤ now - stored := by
  rw [Nat.cast_sub hlive.le, storedUntil_eq_some hset]
  constructor <;> intro h <;> linarith

/-- A call that returns a value older than `ttl` starts a refresh unless one is running, and one
that returns a younger value does not. -/
def Refreshes (ttl swr : ℚ) (inFlight : Option Fetch) (age : ℚ) (started : Bool) : Prop :=
  (ttl * 1000 < age → age < (ttl + swr) * 1000 → inFlight = some .running ∨ started = true) ∧
    (age < ttl * 1000 → started = false)

/-- The call of a cached function refreshes what is stale if and only if there is nothing to
refresh, or a fetch is running, or else the client is the one over HTTP, an expiry has been
stored, and no fetch is left over. -/
theorem swr_refreshes_iff (batched : Bool) (inFlight : String → Option Fetch)
    (key : String) (value : V)
    (revision : ℕ) (hswr : 0 < swr)
    (hset : CacheOptions.set ⟨some ttl, swr⟩ B batchedSet stored = some expires)
    (hlive : ∀ x, expires = some x → now < x) :
    ∃ started, call B batched ⟨some ttl, swr⟩ inFlight key value revision expires now
      = .stored value started ∧
      (Refreshes ttl swr (inFlight key) (now - stored) started ↔
        ((now : ℚ) - stored ≤ ttl * 1000 ∨ (ttl + swr) * 1000 ≤ (now : ℚ) - stored) ∨
          inFlight key = some .running ∨ (B = .http ∧ expires ≠ none ∧ inFlight key = none)) := by
  refine ⟨_, call_eq .., ?_⟩
  -- a younger value is never refreshed
  have hyoung (h : (now : ℚ) - stored < ttl * 1000) :
      ¬ ∃ x, expires = some x ∧ ((x - now : ℕ) : ℚ) ≤ swr * 1000 := by
    rintro ⟨x, rfl, hle⟩
    have hold := (left_le_iff hset (hlive x rfl)).mp hle
    linarith
  -- and an older one whenever its expiry is known
  have hold (h : ttl * 1000 < (now : ℚ) - stored) :
      (∃ x, expires = some x ∧ ((x - now : ℕ) : ℚ) ≤ swr * 1000) ↔ expires ≠ none := by
    constructor
    · rintro ⟨x, rfl, -⟩
      exact Option.some_ne_none x
    · intro hx
      obtain ⟨x, rfl⟩ := Option.ne_none_iff_exists'.mp hx
      exact ⟨x, rfl, (left_le_iff hset (hlive x rfl)).mpr h.le⟩
  constructor
  · rintro ⟨hstale, -⟩
    by_cases hage : ttl * 1000 < (now : ℚ) - stored
    · rcases lt_or_ge ((now : ℚ) - stored) ((ttl + swr) * 1000) with hin | hout
      · rcases hstale hage hin with hrun | hstarted
        · exact .inr (.inl hrun)
        · obtain ⟨-, hB, hleft, hnone⟩ := of_decide_eq_true hstarted
          exact .inr (.inr ⟨hB, (hold hage).mp hleft, hnone⟩)
      · exact .inl (.inr hout)
    · exact .inl (.inl (not_lt.mp hage))
  · intro hwhen
    refine ⟨fun hage hin => ?_, fun hage => decide_eq_false fun hstarted =>
      hyoung hage hstarted.2.2.1⟩
    rcases hwhen with (hfresh | hout) | hrun | ⟨hB, hx, hnone⟩
    · exact absurd hage (not_lt.mpr hfresh)
    · exact absurd hin (not_lt.mpr hout)
    · exact .inl hrun
    · exact .inr (decide_eq_true ⟨hswr, hB, (hold hage).mpr hx, hnone⟩)

theorem swr_refreshes_iff_http :
    ∃ started, call .http false ⟨some 1, 10⟩ (fun _ => none) "k" 7 1 (some 11000) 5000
      = .stored 7 started ∧
      (Refreshes 1 10 none ((5000 : ℕ) - (0 : ℕ)) started ↔
        (((5000 : ℕ) : ℚ) - (0 : ℕ) ≤ 1 * 1000 ∨ ((1 : ℚ) + 10) * 1000 ≤ ((5000 : ℕ) : ℚ) - (0 : ℕ))
        ∨
          (none : Option Fetch) = some .running
          ∨ (Locks.Backend.http = .http ∧ some 11000 ≠ (none : Option ℕ) ∧
            (none : Option Fetch) = none)) := by
  have hset : CacheOptions.set ⟨some 1, 10⟩ .http false 0 = some (some 11000) := by decide +kernel
  exact swr_refreshes_iff false (fun _ => none) "k" 7 1 (by norm_num) hset
    (fun x hx => by cases hx; norm_num)

/-- Five seconds after a value is stored with `ttl` 1 and `swr` 10, a call over RESP returns it and
refreshes nothing. -/
theorem stale_over_resp_not_refreshed :
    CacheOptions.set ⟨some 1, 10⟩ .resp false 0 = some (some 11000) ∧
      call .resp false ⟨some 1, 10⟩ (fun _ => none) "k" 7 1 (some 11000) 5000 = .stored 7 false ∧
        ¬ Refreshes 1 10 none (5000 - 0) false := by
  refine ⟨by decide +kernel, by decide +kernel, fun h => ?_⟩
  rcases h.1 (by norm_num) (by norm_num) with h | h <;> cases h

end swr

end BeyondKv.Sdk.Cached
