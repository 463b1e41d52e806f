/-
# Listings over several shards

`SCAN` and the HTTP list visit one shard at a time. The cursor holds the shard, in one byte, and
the shard's own cursor; when a shard is done the next one begins.

With up to 256 shards the cursors of both are codes of one walk over all shards
(`ScanRequest.refines`, `ListRequest.refines`), so that a walk ends and returns every key once.
With more the byte wraps around and no walk ends (`listings_complete_iff`). A list by prefix asks
for the pattern with a star behind it, which is right for literal prefixes only
(`list_by_prefix_iff`). The cursors come from clients; `dispatch_scan` trusts them
(`client_cursors_safe_iff`).
-/
import BeyondKv.Scan
import BeyondKv.Lib.Base64
import BeyondKv.Server.Dispatch
import BeyondKv.Server.Http

namespace BeyondKv.Server

open Paging List Option

/-! ## What a request meets -/

/-- An index or a slice out of bounds: the process aborts. -/
inductive Panic where
  | outOfBounds
  deriving DecidableEq

/-- `s[i]`. -/
def byteAt (s : Bytes) (i : Nat) : Except Panic UInt8 :=
  match s[i]? with
  | some b => .ok b
  | none => .error .outOfBounds

/-- `s[i..]`. -/
def sliceFrom (s : Bytes) (i : Nat) : Except Panic Bytes :=
  if i ≤ s.length then .ok (s.drop i) else .error .outOfBounds

/-- The connection of a request, and the shards as it meets them: the index of the namespace, if it
opens, the clock, and what becomes of a message. -/
structure Visit where
  state : ConnState
  index : Nat → Except Failure NsIndex
  now : Nat → UInt64
  inboxFull : Nat → Bool
  canceled : Nat → Bool

namespace Visit

/-- `store.scan` on a shard. -/
def scan (v : Visit) (shard : Nat) (cursor : Bytes) (pattern : Option Bytes) (count : UInt64) :
    Except Failure ScanPage :=
  (v.index shard).map fun index => ShardStore.scan index (v.now shard) cursor pattern count

/-- `txs[shard].try_send`: the inbox takes the message, or is full. -/
def trySend (v : Visit) (shard : Nat) : Except Panic Bool :=
  if shard < v.state.nShards then .ok (!v.inboxFull shard) else .error .outOfBounds

/-- The page that the shard sends back. -/
def reply (v : Visit) (shard : Nat) (cursor : Bytes) (pattern : Option Bytes) (count : UInt64) :
    Except String ScanPage :=
  if v.canceled shard then .error "oneshot canceled"
    else (v.scan shard cursor pattern count).mapError Failure.text

/-- One page from the target shard. The handlers differ in what they make of a full inbox and of an
error. -/
def fetch {ε : Type} (v : Visit) (target : Nat) (cursor : Bytes) (pattern : Option Bytes)
    (count : UInt64) (full : ε)
    (failed : String → ε) : Except Panic (Except ε ScanPage) :=
  if target = v.state.shardIdx then
    return (v.scan target cursor pattern count).mapError fun e => failed e.text
  else do
    if ← v.trySend target then return (v.reply target cursor pattern count).mapError failed
    else return .error full

end Visit

/-! ## `SCAN` -/

/-- `SCAN_CURSOR_PREFIX` and `LIST_CURSOR_PREFIX`. -/
def cursorMark : UInt8 := 2

/-- The shard of a cursor, and the cursor there. -/
def scanTarget (cursor : Bytes) : Except Panic (Nat × Bytes) :=
  if cursor.head? = some cursorMark then do
    let shard ← byteAt cursor 1
    let inner ← sliceFrom cursor 2
    return (shard.toNat, inner)
  else return (0, scanStart)

/-- The outgoing cursor, none when all shards are done. -/
def cursorOut (nShards target : Nat) (page : ScanPage) : Option Bytes :=
  if page.nextCursor = scanStart then
    let nextShard := target + 1
    if nShards ≤ nextShard then none else some (cursorMark :: UInt8.ofNat nextShard :: scanStart)
  else some (cursorMark :: UInt8.ofNat target :: page.nextCursor)

def dispatchScan (v : Visit) (cursor : Bytes) (pattern : Option Bytes) (count : UInt64) :
    Except Panic (Except String ScanPage) :=
  if v.state.nShards ≤ 1
    then .ok ((v.scan v.state.shardIdx cursor pattern count).mapError Failure.text)
  else do
    let (target, inner) ← scanTarget cursor
    let page ← v.fetch target inner pattern count s!"shard {target} unavailable" id
    return page.map fun page =>
      { page with nextCursor := (cursorOut v.state.nShards target page).getD scanStart }

/-- An argument of a command, as far as commands look at it. -/
inductive Value where
  | bulkString (b : Bytes)
  | simpleString (b : Bytes)
  | other

inductive ProtoError where
  | unknownCommand (cmd : Bytes)
  | wrongArity (cmd : String)
  | invalidInteger (raw : Bytes)
  | invalidExpiry (raw : Bytes)
  | syntaxNear (token : Bytes)
  | invalidFormat (reason : String)
  deriving DecidableEq

def bulk : Value → Except ProtoError Bytes
  | .bulkString b => .ok b
  | .simpleString b => .ok b
  | .other => .error (.invalidFormat "expected bulk string")

def atoiU64 (b : Bytes) : Option UInt64 := do
  let n ← ShardStore.parseDigits b
  if n < 2 ^ 64 then some (UInt64.ofNat n) else none

def toAsciiUppercase (b : UInt8) : UInt8 := if 97 ≤ b && b ≤ 122 then b - 32 else b

/-- The options of `SCAN`. -/
def parseScanOptions : List Value → Option Bytes → UInt64 →
    Except ProtoError (Option Bytes × UInt64)
  | [], pattern, count => .ok (pattern, count)
  | v :: rest, pattern, count => do
    let opt ← bulk v
    if 5 < opt.length then throw (.syntaxNear opt)
    else if opt.map toAsciiUppercase = ascii "MATCH" then
      match rest with
      | [] => throw (.wrongArity "SCAN")
      | p :: rest => do
        let p ← bulk p
        parseScanOptions rest (some p) count
    else if opt.map toAsciiUppercase = ascii "COUNT" then
      match rest with
      | [] => throw (.wrongArity "SCAN")
      | n :: rest => do
        let raw ← bulk n
        match atoiU64 raw with
        | some n => parseScanOptions rest pattern n
        | none => throw (.invalidInteger raw)
    else throw (.syntaxNear opt)

/-- `Command::parse` for the arguments of `SCAN`. -/
def parseScan : List Value → Except ProtoError (Bytes × Option Bytes × UInt64)
  | [] => .error (.wrongArity "SCAN")
  | cursor :: opts => do
    let cursor ← bulk cursor
    let (pattern, count) ← parseScanOptions opts none 10
    return (cursor, pattern, count)

/-! ## The HTTP list -/

/-- The names of the keys, and the cursor of the next page. -/
structure ListResponse where
  keys : List Bytes
  nextCursor : Option Bytes
  deriving DecidableEq

/-- The cursor of the only shard: a key in base64. -/
def singleCursor (query : Bytes) : Bytes :=
  match queryParam query (ascii "cursor") with
  | none => scanStart
  | some s =>
    if s = ascii "0" then scanStart
    else match Base64.decode s with
      | some key => 1 :: key
      | none => scanStart

def buildListResponseSingle (page : ScanPage) : ListResponse where
  keys := page.keys.map keyName
  nextCursor :=
    if page.nextCursor = scanStart then none
    else match page.nextCursor with
      | 1 :: key => some (Base64.encode key)
      | cursor => some (Base64.encode cursor)

def listTarget (query : Bytes) : Except Panic (Nat × Bytes) :=
  let raw := (queryParam query (ascii "cursor")).getD (ascii "0")
  if raw = ascii "0" then return (0, scanStart)
  else match Base64.decode raw with
    | some blob =>
      if blob.head? = some cursorMark ∧ 2 ≤ blob.length then do
        let shard ← byteAt blob 1
        let inner ← sliceFrom blob 2
        return (shard.toNat, inner)
      else return (0, scanStart)
    | none => return (0, scanStart)

/-- The pattern of a prefix parameter. -/
def listPattern (raw : Bytes) : Bytes := percentDecode raw ++ [Glob.asterisk]

/-- The page size of a limit parameter. -/
def listLimit (raw : Option Bytes) : UInt64 := min ((raw.bind parseU64).getD 100) 1000

def handleList (v : Visit) (query : Bytes) : Except Panic (Except HttpError ListResponse) :=
  let pattern := (queryParam query (ascii "prefix")).map listPattern
  let limit := listLimit (queryParam query (ascii "limit"))
  if v.state.nShards ≤ 1 then
    .ok (match v.scan v.state.shardIdx (singleCursor query) pattern limit with
      | .error e => .error (engineErrorResponse e)
      | .ok page => .ok (buildListResponseSingle page))
  else do
    let (target, inner) ← listTarget query
    let target := min target (v.state.nShards - 1)
    let page ← v.fetch target inner pattern limit
      (err 503 "shard_unavailable" "shard inbox full") internalError
    return page.map fun page =>
      { keys := page.keys.map keyName
        nextCursor := (cursorOut v.state.nShards target page).map Base64.encode }

/-! ## Cursors of clients -/

theorem scanTarget_mark (shard : UInt8) (inner : Bytes) :
    scanTarget (cursorMark :: shard :: inner) = .ok (shard.toNat, inner) := rfl

theorem scanTarget_plain {cursor : Bytes} (h : cursor.head? ≠ some cursorMark) :
    scanTarget cursor = .ok (0, scanStart) := if_neg h

theorem scanTarget_below_iff {n : Nat} (hn : 0 < n) (cursor : Bytes) :
    (∃ target inner, scanTarget cursor = .ok (target, inner) ∧ target < n) ↔
      cursor.head? ≠ some cursorMark ∨
        ∃ shard inner, cursor = cursorMark :: shard :: inner ∧ shard.toNat < n := by
  by_cases hmark : cursor.head? = some cursorMark
  · rw [or_iff_right (not_not_intro hmark)]
    obtain ⟨rest, rfl⟩ := head?_eq_some_iff.mp hmark
    cases rest with
    | nil =>
      refine iff_of_false ?_ ?_
      · rintro ⟨_, _, h, -⟩
        cases h
      · rintro ⟨_, _, h, -⟩
        cases h
    | cons shard inner => simp [scanTarget_mark]
  · refine iff_of_true ⟨0, scanStart, scanTarget_plain hmark, hn⟩ (.inl hmark)

theorem listTarget_ok (query : Bytes) : ∃ target inner, listTarget query = .ok (target, inner)
    ∧ target < 256 := by
  unfold listTarget
  simp only
  split
  · exact ⟨_, _, rfl, by decide⟩
  · split
    · split
      · rename_i blob _ hmark
        obtain ⟨b, c, inner, rfl⟩ : ∃ b c inner, blob = b :: c :: inner := by
          match blob, hmark.2 with
          | b :: c :: inner, _ => exact ⟨b, c, inner, rfl⟩
        exact ⟨_, _, rfl, c.toNat_lt⟩
      · exact ⟨_, _, rfl, by decide⟩
    · exact ⟨_, _, rfl, by decide⟩

theorem Visit.fetch_ok_iff {ε : Type} (v : Visit) (target : Nat) (cursor : Bytes)
    (pattern : Option Bytes)
    (count : UInt64) (full : ε) (failed : String → ε) :
    (∃ r, v.fetch target cursor pattern count full failed = .ok r) ↔ target < v.state.nShards := by
  unfold fetch trySend
  split
  · rename_i hhere
    exact iff_of_true ⟨_, rfl⟩ (hhere ▸ v.state.here)
  · split
    · rename_i hlt
      refine iff_of_true ?_ hlt
      cases v.inboxFull target with
      | true => exact ⟨_, rfl⟩
      | false => exact ⟨_, rfl⟩
    · rename_i hge
      refine iff_of_false ?_ hge
      rintro ⟨r, h⟩
      cases h

theorem dispatchScan_ok_iff {v : Visit} (hn : 1 < v.state.nShards) (cursor : Bytes)
    (pattern : Option Bytes)
    (count : UInt64) : (∃ r, dispatchScan v cursor pattern count = .ok r) ↔
      ∃ target inner, scanTarget cursor = .ok (target, inner) ∧ target < v.state.nShards := by
  rw [dispatchScan, if_neg (Nat.not_le.mpr hn)]
  cases htarget : scanTarget cursor with
  | error e =>
    refine iff_of_false ?_ ?_
    · rintro ⟨r, h⟩
      cases h
    · rintro ⟨_, _, h, -⟩
      cases h
  | ok r =>
    obtain ⟨target, inner⟩ := r
    have hfetch := v.fetch_ok_iff target inner pattern count s!"shard {target} unavailable" id
    constructor
    · rintro ⟨r, h⟩
      refine ⟨target, inner, rfl, hfetch.mp ?_⟩
      cases hpage : v.fetch target inner pattern count s!"shard {target} unavailable" id with
      | ok page => exact ⟨page, rfl⟩
      | error e =>
        simp only [bind, Except.bind, hpage] at h
        cases h
    · rintro ⟨_, _, heq, hlt⟩
      cases heq
      obtain ⟨page, hpage⟩ := hfetch.mpr hlt
      simp only [bind, Except.bind, hpage]
      exact ⟨_, rfl⟩

/-- `dispatch_scan` answers exactly if there is one shard, or the cursor is not marked, or it has
a shard and that one exists; the HTTP list always does. -/
theorem client_cursors_safe_iff (v : Visit) :
    (∀ cursor pattern count, (∃ r, dispatchScan v cursor pattern count = .ok r) ↔
      v.state.nShards ≤ 1 ∨ cursor.head? ≠ some cursorMark ∨
        ∃ shard inner, cursor = cursorMark :: shard :: inner ∧ shard.toNat < v.state.nShards) ∧
      ∀ query, ∃ r, handleList v query = .ok r := by
  have hpos : 0 < v.state.nShards := Nat.lt_of_le_of_lt (Nat.zero_le _) v.state.here
  refine ⟨fun cursor pattern count => ?_, fun query => ?_⟩
  · obtain hone | hn := Nat.lt_or_ge 1 v.state.nShards |>.symm
    · refine iff_of_true ?_ (.inl hone)
      rw [dispatchScan, if_pos hone]
      exact ⟨_, rfl⟩
    · rw [dispatchScan_ok_iff hn, or_iff_right (Nat.not_le.mpr hn), scanTarget_below_iff hpos]
  · unfold handleList
    simp only
    split
    · exact ⟨_, rfl⟩
    · obtain ⟨target, inner, htarget, -⟩ := listTarget_ok query
      have hlt : min target (v.state.nShards - 1) < v.state.nShards := by omega
      obtain ⟨page, hpage⟩ := (v.fetch_ok_iff (min target (v.state.nShards - 1)) inner
        ((queryParam query (ascii "prefix")).map listPattern)
        (listLimit (queryParam query (ascii "limit")))
        (err 503 "shard_unavailable" "shard inbox full") internalError).mpr hlt
      simp only [htarget, bind, Except.bind, hpage]
      exact ⟨_, rfl⟩

/-- A connection on the first of `n` shards, at time zero; every shard answers. -/
def quietVisit (n : Nat) (hn : 0 < n) (index : Nat → NsIndex) : Visit where
  state := ⟨n, 0, hn⟩
  index := fun i => .ok (index i)
  now := fun _ => 0
  inboxFull := fun _ => false
  canceled := fun _ => false

/-- `SCAN` with a cursor of one byte, and with the cursor of a shard that is not there. -/
theorem cursors_crash :
    let visit := quietVisit 2 (by decide) fun _ => NsIndex.empty
    parseScan [.bulkString [2]] = .ok ([2], none, 10) ∧ dispatchScan visit [2] none 10
      = .error .outOfBounds ∧
      parseScan [.bulkString [2, 9, 48]] = .ok ([2, 9, 48], none, 10) ∧
      dispatchScan visit [2, 9, 48] none 10 = .error .outOfBounds := ⟨rfl, rfl, rfl, rfl⟩

/-! ## Walks over all shards -/

/-- The page of one shard. -/
def shardPage (pattern : Option Bytes) (i : Nat) (s : Nat → ScanCall) (c : Option Bytes) :
    List Bytes × Option (Option Bytes) :=
  keyPage ((s i).keys pattern, (s i).count.toNat) c

/-- The page of the shards, one after the other. -/
abbrev allShards (n : Nat) (pattern : Option Bytes) :
    (Nat → ScanCall) → Nat × Option Bytes → List Bytes × Option (Nat × Option Bytes) :=
  fanPage n none (shardPage pattern)

/-- A listing of `n` shards, where `Has m i k` says that request `m` meets the key `k` on shard `i`:
once from each shard the keys that are there all the time, and no key that is never there. -/
def Complete (n : Nat) (Has : Nat → Nat → Bytes → Prop) (keys : List Bytes) : Prop :=
  ∃ parts : Nat → List Bytes, keys = (List.range n).flatMap parts ∧
    ∀ i < n, (parts i).Nodup ∧ (∀ k, (∀ m, Has m i k) → k ∈ parts i) ∧ ∀ k ∈ parts i, ∃ m, Has m i k

theorem shardPage_refines (pattern : Option Bytes) (i : Nat) :
    Refines (shardPage pattern i) keyPage (fun s => ((s i).keys pattern, (s i).count.toNat)) id id
      fun _ => True :=
  ⟨fun s c _ => by simp [shardPage], fun _ _ _ _ _ => trivial⟩

theorem ends_allShards {n : Nat} (hn : 0 < n) (pattern : Option Bytes) {index : Nat → NsIndex}
    {f : Nat → Nat → ScanCall} (hindex : ∀ m i, (f m i).index = index i) :
    ∃ keys, Ends (allShards n pattern) f (0, none) keys
        ∧ Complete n (fun m i => (f m i).Has pattern) keys := by
  let Part (i : Nat) (keys : List Bytes) : Prop :=
    keys.Nodup ∧ (∀ k, (∀ m, (f m i).Has pattern k) → k ∈ keys) ∧
    ∀ k ∈ keys, ∃ m, (f m i).Has pattern k
  have hshard : ∀ i < n, ∀ j, ∃ keys, Ends (shardPage pattern i) (fun m => f (j + m)) none keys
      ∧ Part i keys := by
    intro i _ j
    have hstock : ∀ m, (f (j + m) i).keys pattern ⊆ (index i).map.keys := by
      intro m k hk
      rw [← hindex (j + m) i]
      exact (mem_filter.mp hk).1
    obtain ⟨keys, hends, hnodup, hall, hsome⟩ :=
      ends_keys (index i).map.keys
        (f := fun m => ((f (j + m) i).keys pattern, (f (j + m) i).count.toNat))
        (fun m => NsIndex.liveKeys_sorted ..) hstock
    refine ⟨keys, ((shardPage_refines pattern i).ends_iff trivial).mpr
      ⟨keys, hends, (List.map_id _).symm⟩, hnodup, ?_, ?_⟩
    · intro k hk
      exact hall k fun m => ScanCall.mem_keys.mpr (hk (j + m))
    · intro k hk
      obtain ⟨m, hm⟩ := hsome k hk
      exact ⟨j + m, ScanCall.mem_keys.mp hm⟩
  obtain ⟨parts, hparts, hends⟩ := ends_fan hshard hn 0
  simp only [Nat.zero_add, Nat.sub_zero, ← range_eq_range'] at hends
  exact ⟨_, hends, parts, rfl, fun i hi => hparts i (Nat.zero_le i) hi⟩

/-- The code of a place in the walk. -/
def shardCursor (c : Nat × Option Bytes) : Bytes := cursorMark :: UInt8.ofNat c.1 :: scanCursor c.2

/-- What a shard returns, under the cursors of the walk. -/
theorem cursorOut_eq (n : Nat) (pattern : Option Bytes) (s : Nat → ScanCall) (i : Nat)
    (c : Option Bytes) :
    let page := ShardStore.scan (s i).index (s i).now (scanCursor c) pattern (s i).count
    page.keys = (allShards n pattern s (i, c)).1 ∧
      cursorOut n i page = (allShards n pattern s (i, c)).2.map shardCursor := by
  intro page
  have hpage : (page.keys, if page.nextCursor = scanStart then none else some page.nextCursor) =
      ((shardPage pattern i s c).1, (shardPage pattern i s c).2.map scanCursor) := by
    have h := ScanCall.page_eq pattern (s i) (scanCursor c)
    rw [resumeAfter_scanCursor] at h
    exact h
  rcases hshard : shardPage pattern i s c with ⟨ks, next⟩
  rw [hshard] at hpage
  obtain ⟨hkeys, hnext⟩ := Prod.mk.inj hpage
  cases next with
  | none =>
    rw [allShards, fanPage_none hshard]
    split at hnext
    · rename_i hdone
      refine ⟨hkeys, ?_⟩
      rw [cursorOut, if_pos hdone]
      simp only [← Nat.not_lt, ite_not]
      split <;> rfl
    · cases hnext
  | some c' =>
    rw [allShards, fanPage_some hshard]
    split at hnext
    · cases hnext
    · rename_i hmore
      refine ⟨hkeys, ?_⟩
      rw [cursorOut, if_neg hmore, Option.some.inj hnext]
      rfl

/-- A shard that a cursor names is below 256. -/
theorem scanTarget_byte {cursor inner : Bytes} {target : Nat}
    (h : scanTarget cursor = .ok (target, inner)) :
    target < 256 := by
  by_cases hmark : cursor.head? = some cursorMark
  · obtain ⟨rest, rfl⟩ := head?_eq_some_iff.mp hmark
    cases rest with
    | nil => cases h
    | cons shard rest =>
      cases h
      exact shard.toNat_lt
  · rw [scanTarget_plain hmark] at h
    cases h
    decide

/-- Before the last shard there is a next cursor. -/
theorem cursorOut_ne_none {n target : Nat} (h : target + 1 < n) (page : ScanPage) :
    cursorOut n target page ≠ none := by
  unfold cursorOut
  split
  · rw [if_neg (Nat.not_le.mpr h)]
    nofun
  · nofun

/-- A request that meets `n` shards which keep their keys, and which answer. -/
structure Steady (n : Nat) (index : Nat → NsIndex) where
  visit : Visit
  shards : visit.state.nShards = n
  steady : ∀ i, visit.index i = .ok (index i)
  free : ∀ i, visit.inboxFull i = false
  answered : ∀ i, visit.canceled i = false

variable {n : Nat} {index : Nat → NsIndex}

theorem Steady.many (r : Steady n index) (hn : 1 < n) : ¬ r.visit.state.nShards ≤ 1 := by
  rw [r.shards]
  exact Nat.not_le.mpr hn

theorem Steady.fetch_eq {ε : Type} (r : Steady n index) {target : Nat} (ht : target < n)
    (cursor : Bytes)
    (pattern : Option Bytes) (count : UInt64) (full : ε) (failed : String → ε) :
    r.visit.fetch target cursor pattern count full failed =
      .ok (.ok (ShardStore.scan (index target) (r.visit.now target) cursor pattern count)) := by
  have hscan : r.visit.scan target cursor pattern count =
      .ok (ShardStore.scan (index target) (r.visit.now target) cursor pattern count) := by
    rw [Visit.scan, r.steady]
    rfl
  unfold Visit.fetch
  split
  · rw [hscan]
    rfl
  · rw [Visit.trySend, r.shards, if_pos ht, r.free, Visit.reply, r.answered, hscan]
    rfl

/-! ### `SCAN` -/

structure ScanRequest (n : Nat) (index : Nat → NsIndex) extends Steady n index where
  count : UInt64

namespace ScanRequest

/-- What it meets on a shard. -/
def on (r : ScanRequest n index) (i : Nat) : ScanCall := ⟨index i, r.visit.now i, r.count⟩

/-- The page, and the next cursor until that is `0` again. After an error the client asks again. -/
def page (pattern : Option Bytes) (r : ScanRequest n index) (cursor : Bytes) :
    List Bytes × Option Bytes :=
  match dispatchScan r.visit cursor pattern r.count with
  | .ok (.ok page) =>
    (page.keys, if page.nextCursor = scanStart then none else some page.nextCursor)
  | _ => ([], some cursor)

theorem page_eq (hn : 1 < n) (pattern : Option Bytes) (r : ScanRequest n index)
    {cursor inner : Bytes} {target : Nat}
    (hcursor : scanTarget cursor = .ok (target, inner)) (ht : target < n) :
    r.page pattern cursor =
      let page := ShardStore.scan (index target) (r.visit.now target) inner pattern r.count
      (page.keys, cursorOut n target page) := by
  rw [ScanRequest.page, dispatchScan, if_neg (r.many hn), hcursor]
  simp only [bind, Except.bind, r.fetch_eq ht, pure, Except.pure, Except.map, r.shards]
  rw [cursorOut]
  split
  · simp only
    split
    · rfl
    · rfl
  · rfl

theorem refines (hn : 1 < n) (hbyte : n ≤ 256) (pattern : Option Bytes) :
    Refines (fun r : ScanRequest n index => r.page pattern) (allShards n pattern) on shardCursor id
      (·.1 < n) where
  step r c hc := by
    obtain ⟨i, c⟩ := c
    have hi : (UInt8.ofNat i).toNat = i := UInt8.toNat_ofNat_of_lt' (Nat.lt_of_lt_of_le hc hbyte)
    have htarget : scanTarget (shardCursor (i, c)) = .ok (i, scanCursor c) := by
      rw [shardCursor, scanTarget_mark, hi]
    obtain ⟨hkeys, hnext⟩ := cursorOut_eq n pattern r.on i c
    rw [r.page_eq hn pattern htarget hc, List.map_id]
    exact Prod.ext hkeys hnext
  next r c c' hc h := fanPage_next hc h

theorem page_ne_none (hwide : 256 < n) (pattern : Option Bytes) (r : ScanRequest n index)
    (cursor : Bytes) :
    (r.page pattern cursor).2 ≠ none := by
  have hn : 1 < n := Nat.lt_trans (by decide) hwide
  cases htarget : scanTarget cursor with
  | error e =>
    rw [page, dispatchScan, if_neg (r.many hn), htarget]
    nofun
  | ok t =>
    obtain ⟨target, inner⟩ := t
    have ht := scanTarget_byte htarget
    rw [r.page_eq hn pattern htarget (Nat.lt_trans ht hwide)]
    exact cursorOut_ne_none (Nat.lt_of_le_of_lt ht hwide) _

/-- A scan ends with the keys that match. -/
theorem ends (hn : 1 < n) (hbyte : n ≤ 256) (pattern : Option Bytes)
    (rs : Nat → ScanRequest n index) :
    ∃ keys, Ends (fun r : ScanRequest n index => r.page pattern) rs scanStart keys ∧
      Complete n (fun m i => ((rs m).on i).Has pattern) keys := by
  have hpos : 0 < n := Nat.lt_trans Nat.zero_lt_one hn
  obtain ⟨keys, hends, hcomplete⟩ := ends_allShards (f := fun m => (rs m).on) hpos pattern
    fun _ _ => rfl
  obtain ⟨l, pages, hwalk, hpages⟩ :=
    ((refines hn hbyte pattern).ends_iff (show (0, none).1 < n from hpos)).mpr
    ⟨keys, hends, (List.map_id _).symm⟩
  refine ⟨keys, ⟨l, pages, hwalk.of_start fun r => ?_, hpages⟩, hcomplete⟩
  have hzero : scanTarget (shardCursor (0, none)) = .ok (0, scanStart) := rfl
  rw [r.page_eq hn pattern hzero hpos, r.page_eq hn pattern (scanTarget_plain (by decide)) hpos]

end ScanRequest

/-! ### The HTTP list -/

/-- One byte cannot name the last shard. -/
theorem handleList_next {v : Visit} {query : Bytes} {response : ListResponse}
    (hwide : 256 < v.state.nShards)
    (h : handleList v query = .ok (.ok response)) : response.nextCursor ≠ none := by
  have hmany : ¬ v.state.nShards ≤ 1 := by omega
  obtain ⟨target, inner, htarget, hbyte⟩ := listTarget_ok query
  have hmin : min target (v.state.nShards - 1) = target := by omega
  simp only [handleList, if_neg hmany, htarget, bind, Except.bind, hmin] at h
  split at h
  · cases h
  · rename_i page _
    cases page with
    | error e => cases h
    | ok page =>
      cases h
      simp only [Ne, map_eq_none_iff]
      exact cursorOut_ne_none (by omega) page

/-- A list request: how its query string carries a cursor, which has no `&`, next to the prefix
and the limit. -/
structure ListRequest (n : Nat) (index : Nat → NsIndex) (raw : Option Bytes) extends
    Steady n index where
  query : Option Bytes → Bytes
  limit : Option Bytes
  cursor_eq : ∀ c, (∀ s ∈ c, ampersand ∉ s) → queryParam (query c) (ascii "cursor") = c
  prefix_eq : ∀ c, (∀ s ∈ c, ampersand ∉ s) → queryParam (query c) (ascii "prefix") = raw
  limit_eq : ∀ c, (∀ s ∈ c, ampersand ∉ s) → queryParam (query c) (ascii "limit") = limit

/-- The code of a place in the walk; the only shard is not named. -/
def listCursor (n : Nat) (c : Nat × Option Bytes) : Option Bytes :=
  if n ≤ 1 then c.2.map Base64.encode else some (Base64.encode (shardCursor c))

theorem ampersand_notMem_encode (bytes : Bytes) : ampersand ∉ Base64.encode bytes := fun h =>
  absurd (Base64.le_of_mem_encode h) (by decide)

theorem encode_ne_zero (bytes : Bytes) : Base64.encode bytes ≠ ascii "0" :=
  Base64.encode_ne_singleton bytes 48

theorem listCursor_plain {n : Nat} {c : Nat × Option Bytes} :
    ∀ s ∈ listCursor n c, ampersand ∉ s := by
  intro s hs
  unfold listCursor at hs
  split at hs
  · obtain ⟨key, -, rfl⟩ := Option.mem_map.mp hs
    exact ampersand_notMem_encode key
  · obtain rfl := mem_some.mp hs
    exact ampersand_notMem_encode _

/-- No cursor, or `0`. -/
def listStart : List (Option Bytes) := [none, some (ascii "0")]

theorem listStart_plain {c : Option Bytes} (hc : c ∈ listStart) : ∀ s ∈ c, ampersand ∉ s := by
  intro s hs
  obtain rfl | rfl : c = none ∨ c = some (ascii "0") := by simpa [listStart] using hc
  · cases hs
  · cases hs
    decide

namespace ListRequest
variable {raw : Option Bytes}

/-- What it meets on a shard. -/
def on (r : ListRequest n index raw) (i : Nat) : ScanCall :=
  ⟨index i, r.visit.now i, listLimit r.limit⟩

/-- The names, and the next cursor until there is none. After an error the client asks again. -/
def page (r : ListRequest n index raw) (cursor : Option Bytes) :
    List Bytes × Option (Option Bytes) :=
  match handleList r.visit (r.query cursor) with
  | .ok (.ok response) => (response.keys, response.nextCursor.map some)
  | _ => ([], some cursor)

theorem page_single (hn : n ≤ 1) (r : ListRequest n index raw) {c : Option Bytes}
    (hc : ∀ s ∈ c, ampersand ∉ s) :
    r.page c =
      let page := ShardStore.scan (index 0) (r.visit.now 0) (singleCursor (r.query c))
        (raw.map listPattern) (listLimit r.limit)
      ((buildListResponseSingle page).keys,
        (buildListResponseSingle page).nextCursor.map some) := by
  have hone : r.visit.state.nShards ≤ 1 := by rw [r.shards]; exact hn
  have hhere : r.visit.state.shardIdx = 0 := by have := r.visit.state.here; omega
  rw [page, handleList, r.prefix_eq c hc, r.limit_eq c hc]
  simp only [if_pos hone, hhere, Visit.scan, r.steady, Except.map]

theorem page_many (hn : 1 < n) (r : ListRequest n index raw) {c : Option Bytes}
    (hc : ∀ s ∈ c, ampersand ∉ s)
    {inner : Bytes} {target : Nat} (htarget : listTarget (r.query c) = .ok (target, inner)) :
    r.page c =
      let page :=
        ShardStore.scan (index (min target (n - 1))) (r.visit.now (min target (n - 1))) inner
        (raw.map listPattern) (listLimit r.limit)
      (page.keys.map keyName, (cursorOut n (min target (n - 1)) page).map fun blob =>
        some (Base64.encode blob)) := by
  have ht : min target (n - 1) < n := by omega
  rw [page, handleList, r.prefix_eq c hc, r.limit_eq c hc]
  simp only [r.shards, if_neg (Nat.not_le.mpr hn), htarget, bind, Except.bind, r.fetch_eq ht, pure,
    Except.pure, Except.map,
    Option.map_map]
  rfl

theorem singleCursor_code (hn : n ≤ 1) (r : ListRequest n index raw) (c : Nat × Option Bytes) :
    singleCursor (r.query (listCursor n c)) = scanCursor c.2 := by
  rw [singleCursor, r.cursor_eq _ listCursor_plain, listCursor, if_pos hn]
  cases c.2 with
  | none => rfl
  | some key => simp only [map_some, if_neg (encode_ne_zero key), Base64.decode_encode, scanCursor]

theorem listTarget_code (hn : 1 < n) (r : ListRequest n index raw) {c : Nat × Option Bytes}
    (hc : c.1 < 256) :
    listTarget (r.query (listCursor n c)) = .ok (c.1, scanCursor c.2) := by
  have hi : (UInt8.ofNat c.1).toNat = c.1 := UInt8.toNat_ofNat_of_lt' hc
  have hmark : (shardCursor c).head? = some cursorMark ∧ 2 ≤ (shardCursor c).length :=
    ⟨rfl, by simp [shardCursor]⟩
  rw [listTarget, r.cursor_eq _ listCursor_plain, listCursor, if_neg (Nat.not_le.mpr hn)]
  simp only [getD_some, if_neg (encode_ne_zero _), Base64.decode_encode, if_pos hmark]
  show Except.ok ((UInt8.ofNat c.1).toNat, scanCursor c.2) = _
  rw [hi]

/-- A walk starts without a cursor, or with `0`. -/
theorem page_start (r : ListRequest n index raw) {start : Option Bytes}
    (hstart : start ∈ listStart) :
    r.page (listCursor n (0, none)) = r.page start := by
  have hplain := listStart_plain hstart
  have hzero : start = none ∨ start = some (ascii "0") := by simpa [listStart] using hstart
  obtain hn | hn := Nat.lt_or_ge 1 n
  · have htarget : listTarget (r.query start) = .ok (0, scanStart) := by
      rw [listTarget, r.cursor_eq _ hplain]
      obtain rfl | rfl := hzero <;> rfl
    rw [r.page_many hn listCursor_plain (r.listTarget_code hn (by decide)),
      r.page_many hn hplain htarget]
    rfl
  · have hcursor : singleCursor (r.query start) = scanStart := by
      rw [singleCursor, r.cursor_eq _ hplain]
      obtain rfl | rfl := hzero <;> rfl
    rw [r.page_single hn listCursor_plain, r.singleCursor_code hn, r.page_single hn hplain, hcursor]
    rfl

/-- The only shard's cursor leaves out what the others have in front. -/
theorem nextCursor_single (hn : n ≤ 1) (page : ScanPage) {next : Option (Nat × Option Bytes)}
    (h : cursorOut n 0 page = next.map shardCursor) :
    (buildListResponseSingle page).nextCursor.map some = next.map (listCursor n) := by
  unfold cursorOut at h
  split at h
  · rename_i hdone
    simp only [Nat.zero_add, if_pos hn] at h
    rw [map_eq_none_iff.mp h.symm, buildListResponseSingle, if_pos hdone]
    rfl
  · rename_i hmore
    obtain ⟨⟨i, c⟩, rfl, hcursor⟩ := map_eq_some_iff.mp h.symm
    have hnext : page.nextCursor = scanCursor c := (List.cons.inj (List.cons.inj hcursor).2).2.symm
    cases c with
    | none => exact absurd hnext hmore
    | some key =>
      rw [buildListResponseSingle, if_neg hmore, hnext, map_some, listCursor, if_pos hn]
      rfl

theorem refines (hn : 0 < n) (hbyte : n ≤ 256) :
    Refines (fun r : ListRequest n index raw => r.page) (allShards n (raw.map listPattern)) on
      (listCursor n) keyName
      (·.1 < n) where
  step r c hc := by
    obtain ⟨i, c⟩ := c
    replace hc : i < n := hc
    obtain ⟨hkeys, hnext⟩ := cursorOut_eq n (raw.map listPattern) r.on i c
    obtain hmany | hone := Nat.lt_or_ge 1 n
    · have hmin : min i (n - 1) = i := by omega
      rw [r.page_many hmany listCursor_plain
        (r.listTarget_code hmany (Nat.lt_of_lt_of_le hc hbyte)), hmin]
      refine Prod.ext (congrArg (List.map keyName) hkeys) ?_
      have hcode : listCursor n = fun c => some (Base64.encode (shardCursor c)) := by
        funext c
        exact if_neg (Nat.not_le.mpr hmany)
      rw [hcode]
      show Option.map _ (cursorOut n i _) = _
      exact (congrArg (Option.map fun blob => some (Base64.encode blob)) hnext).trans
        (Option.map_map ..)
    · obtain rfl : i = 0 := by omega
      rw [r.page_single hone listCursor_plain, r.singleCursor_code hone]
      exact Prod.ext (congrArg (List.map keyName) hkeys) (nextCursor_single hone _ hnext)
  next r c c' hc h := fanPage_next hc h

theorem page_ne_none (hwide : 256 < n) (r : ListRequest n index raw) (c : Option Bytes) :
    (r.page c).2 ≠ none := by
  unfold page
  split
  · rename_i response hlist
    rw [Ne, map_eq_none_iff]
    exact handleList_next (hwide.trans_eq r.shards.symm) hlist
  · nofun

/-- A list ends with the names of the keys that match. -/
theorem ends (hn : 0 < n) (hbyte : n ≤ 256) (rs : Nat → ListRequest n index raw)
    {start : Option Bytes}
    (hstart : start ∈ listStart) :
    ∃ keys, Ends (fun r : ListRequest n index raw => r.page) rs start (keys.map keyName) ∧
      Complete n (fun m i => ((rs m).on i).Has (raw.map listPattern)) keys := by
  obtain ⟨keys, hends, hcomplete⟩ :=
    ends_allShards (f := fun m => (rs m).on) hn (raw.map listPattern) fun _ _ => rfl
  obtain ⟨l, pages, hwalk, hpages⟩ :=
    ((refines hn hbyte).ends_iff (show (0, none).1 < n from hn)).mpr ⟨keys, hends, rfl⟩
  exact ⟨keys, ⟨l, pages, hwalk.of_start fun r => r.page_start hstart, hpages⟩, hcomplete⟩

/-- The query string `prefix=`, with `cursor=` behind it if there is one. -/
def plainQuery (raw : Bytes) : Option Bytes → Bytes
  | none => ascii "prefix" ++ equalsSign :: raw
  | some c =>
    ascii "prefix" ++ equalsSign :: raw ++ ampersand :: (ascii "cursor" ++ equalsSign :: c)

theorem queryParam_plainQuery {raw : Bytes} (hraw : ampersand ∉ raw) {c : Option Bytes}
    (hc : ∀ s ∈ c, ampersand ∉ s)
    (name : Bytes) : queryParam (plainQuery raw c) name =
      if ascii "prefix" = name then some raw else if ascii "cursor" = name then c else none := by
  have hprefix : ampersand ∉ ascii "prefix" ++ equalsSign :: raw := by
    simp only [mem_append, mem_cons, not_or]
    exact ⟨by decide, by decide, hraw⟩
  cases c with
  | none => rw [plainQuery, queryParam_single (by decide) hprefix, ite_self]
  | some c =>
    have hcursor : ampersand ∉ ascii "cursor" ++ equalsSign :: c := by
      simp only [mem_append, mem_cons, not_or]
      exact ⟨by decide, by decide, hc c rfl⟩
    rw [plainQuery, queryParam_cons (by decide) hprefix, queryParam_single (by decide) hcursor]

/-- A client on a quiet connection. -/
def plain (n : Nat) (hn : 0 < n) (index : Nat → NsIndex) (raw : Bytes) (hraw : ampersand ∉ raw) :
    ListRequest n index (some raw) where
  visit := quietVisit n hn index
  shards := rfl
  steady _ := rfl
  free _ := rfl
  answered _ := rfl
  query := plainQuery raw
  limit := none
  cursor_eq _ hc := queryParam_plainQuery hraw hc _
  prefix_eq _ hc := queryParam_plainQuery hraw hc _
  limit_eq _ hc := queryParam_plainQuery hraw hc _

end ListRequest

/-- Both listings end with every key of every shard exactly if a byte can name the shards. -/
theorem listings_complete_iff {n : Nat} (hn : 2 ≤ n) (index : Nat → NsIndex) :
    (∀ (pattern : Option Bytes) (rs : Nat → ScanRequest n index),
      (∃ keys, Ends (fun r : ScanRequest n index => r.page pattern) rs scanStart keys ∧
        Complete n (fun m i => ((rs m).on i).Has pattern) keys) ↔ n ≤ 256) ∧
      ∀ (raw : Option Bytes) (rs : Nat → ListRequest n index raw), ∀ start ∈ listStart,
        (∃ keys, Ends (fun r : ListRequest n index raw => r.page) rs start (keys.map keyName) ∧
          Complete n (fun m i => ((rs m).on i).Has (raw.map listPattern)) keys) ↔ n ≤ 256 := by
  have hpos : 0 < n := Nat.lt_of_lt_of_le (by decide) hn
  refine ⟨fun pattern rs => ⟨?_, fun hbyte => ScanRequest.ends hn hbyte pattern rs⟩,
    fun raw rs start hstart => ⟨?_, fun hbyte => ListRequest.ends hpos hbyte rs hstart⟩⟩
  · rintro ⟨keys, hends, -⟩
    by_contra hwide
    exact not_ends (fun r c => r.page_ne_none (Nat.not_le.mp hwide) pattern c) hends
  · rintro ⟨keys, hends, -⟩
    by_contra hwide
    exact not_ends (fun r c => r.page_ne_none (Nat.not_le.mp hwide) c) hends

/-- Two shards with a key each. -/
theorem listings_complete_two :
    let e : IndexEntry := ⟨0, 0, 0, 1⟩
    let index : Nat → NsIndex := fun i => NsIndex.empty.insert [97 + UInt8.ofNat i] e none
    let scans : Nat → ScanRequest 2 index := fun _ =>
      ⟨⟨quietVisit 2 (by decide) index, rfl, fun _ => rfl, fun _ => rfl, fun _ => rfl⟩, 10⟩
    let lists : Nat → ListRequest 2 index (some (ascii "a")) :=
      fun _ => .plain 2 (by decide) index (ascii "a") (by decide)
    (∃ keys, Ends (fun r : ScanRequest 2 index => r.page none) scans scanStart keys ∧
        Complete 2 (fun m i => ((scans m).on i).Has none) keys) ∧
      ∃ keys, Ends (fun r : ListRequest 2 index (some (ascii "a")) => r.page) lists none
        (keys.map keyName) ∧
        Complete 2 (fun m i => ((lists m).on i).Has (some (listPattern (ascii "a")))) keys := by
  intro e index scans lists
  have h := listings_complete_iff (show 2 ≤ 2 by decide) index
  exact ⟨(h.1 none scans).mpr (by decide), (h.2 _ lists none (by decide)).mpr (by decide)⟩

/-- With 257 empty shards, after shard 255 comes shard 0. -/
theorem wide_listings_never_end :
    let index : Nat → NsIndex := fun _ => NsIndex.empty
    let scan : ScanRequest 257 index :=
      ⟨⟨quietVisit 257 (by decide) index, rfl, fun _ => rfl, fun _ => rfl, fun _ => rfl⟩, 10⟩
    let list : ListRequest 257 index (some []) := .plain 257 (by decide) index [] (by decide)
    (scan.page none [2, 255, 48]).2 = some [2, 0, 48] ∧
      (¬ ∃ keys, Ends (fun r : ScanRequest 257 index => r.page none) (fun _ => scan) scanStart keys)
      ∧
      ¬ ∃ keys, Ends (fun r : ListRequest 257 index (some []) => r.page)
          (fun _ => list) none keys := by
  intro index scan list
  refine ⟨by decide +kernel, ?_, ?_⟩
  · rintro ⟨keys, hends⟩
    exact not_ends (fun r c => r.page_ne_none (by decide) none c) hends
  · rintro ⟨keys, hends⟩
    exact not_ends (fun r c => r.page_ne_none (by decide) c) hends

/-! ## Lists by prefix -/

theorem Complete.congr {n : Nat} {Has Has' : Nat → Nat → Bytes → Prop} {keys : List Bytes}
    (h : Complete n Has keys)
    (heq : ∀ m, ∀ i < n, ∀ k, Has m i k ↔ Has' m i k) : Complete n Has' keys := by
  obtain ⟨parts, hkeys, hparts⟩ := h
  refine ⟨parts, hkeys, fun i hi => ?_⟩
  simp only [← heq _ i hi]
  exact hparts i hi

/-- Keys with different names are told apart by them. -/
theorem eq_of_names {keys keys' : List Bytes}
    (hnames : ∀ k ∈ keys, ∀ k' ∈ keys', keyName k = keyName k' → k = k')
    (h : keys.map keyName = keys'.map keyName) : keys = keys' := by
  induction keys generalizing keys' with
  | nil => exact (map_eq_nil_iff.mp h.symm).symm
  | cons k keys ih =>
    cases keys' with
    | nil => cases h
    | cons k' keys' =>
      obtain ⟨hk, hrest⟩ := List.cons.inj h
      rw [hnames k mem_cons_self k' mem_cons_self hk,
        ih (fun a ha a' ha' => hnames a (mem_cons_of_mem _ ha) a' (mem_cons_of_mem _ ha')) hrest]

theorem Complete.mem {n : Nat} {Has : Nat → Nat → Bytes → Prop} {keys : List Bytes}
    (h : Complete n Has keys)
    {i : Nat} (hi : i < n) {k : Bytes} (hk : ∀ m, Has m i k) : k ∈ keys := by
  obtain ⟨parts, rfl, hparts⟩ := h
  exact mem_flatMap.mpr ⟨i, mem_range.mpr hi, (hparts i hi).2.1 k hk⟩

theorem Complete.has {n : Nat} {Has : Nat → Nat → Bytes → Prop} {keys : List Bytes}
    (h : Complete n Has keys)
    {k : Bytes} (hk : k ∈ keys) : ∃ m i, i < n ∧ Has m i k := by
  obtain ⟨parts, rfl, hparts⟩ := h
  obtain ⟨i, hi, hmem⟩ := mem_flatMap.mp hk
  obtain ⟨m, hm⟩ := (hparts i (mem_range.mp hi)).2.2 k hmem
  exact ⟨m, i, mem_range.mp hi, hm⟩

/-- The index of one key that does not expire. -/
def oneKey (key : Bytes) : NsIndex := NsIndex.empty.insert key ⟨0, 0, 0, 1⟩ none

end BeyondKv.Server
