/-
# The key of a request, twice

When a connection is accepted, the first bytes of its first request are peeked for a key, and the
key decides the shard (`peekHttpKey`). The request itself is parsed later, and takes the key from
the path (`serve`). The peek looks for `/v1/kv/` anywhere in the target of the request line.

Both find the same key for every request under `/v1/kv/`. A watch of a key is under `/v1/watch/`,
where the peek finds nothing, unless the query happens to have the key behind a `/v1/kv/`
(`peek_agrees_iff`).
-/
import BeyondKv.Server.Http

namespace BeyondKv.Server.Http

open List

/-! ## The peek -/

abbrev newline : UInt8 := 10
abbrev space : UInt8 := 32
abbrev slash : UInt8 := 47
abbrev questionMark : UInt8 := 63

/-- `needle`. -/
def kvRoot : Bytes := ascii "/v1/kv/"

/-- What follows the first occurrence of the needle. -/
def afterFirst (needle : Bytes) : Bytes → Option Bytes
  | [] => none
  | b :: s =>
    if needle.isPrefixOf (b :: s) then some ((b :: s).drop needle.length) else afterFirst needle s

/-- The body of `percent_decode_routing` is that of `percent_decode`. -/
abbrev percentDecodeRouting : Bytes → Bytes := percentDecode

/-- The key that starts here; slashes are part of it. -/
def keyAfter (after : Bytes) : Option Bytes :=
  let keySlice := after.takeWhile fun b => !(b == questionMark || b == space)
  if keySlice = [] then none
  else
    let keyBytes := (keySlice.dropSuffix? (ascii "/incr")).getD keySlice
    if keyBytes = [] then none else some (percentDecodeRouting keyBytes)

/-- The key in the target of a request line, if it is there. -/
def keyInTarget (path : Bytes) : Option Bytes := (afterFirst kvRoot path).bind keyAfter

def peekHttpKey (buf : Bytes) : Option Bytes :=
  match buf.span (· != newline) with
  | (_, []) => none
  | (line, _ :: _) => do
    let path ← (line.splitOn space)[1]?
    keyInTarget path

/-! ## The request -/

inductive Method where
  | get
  | head
  | put
  | delete
  | patch
  | post
  | other
  deriving DecidableEq

def parseMethod (b : Bytes) : Method :=
  if b = ascii "GET" then .get
  else if b = ascii "HEAD" then .head
  else if b = ascii "PUT" then .put
  else if b = ascii "DELETE" then .delete
  else if b = ascii "PATCH" then .patch
  else if b = ascii "POST" then .post
  else .other

/-- `str::parse::<u8>`. -/
def parseU8 (s : Bytes) : Option Nat := do
  let n ← parseU64 s
  if n < 256 then some n.toNat else none

/-- The number of the namespace. -/
def parseNs (query : Bytes) : Except HttpError Nat :=
  let n := ((queryParam query (ascii "ns")).bind parseU8).getD 0
  if n < 16 then .ok n else .error (err 400 "invalid_namespace" "ns must be 0-15")

structure WatchParams where
  ns : Nat
  key : Bytes
  isPrefix : Bool
  since : Option UInt64

def parseWatchParams (path query : Bytes) : Option WatchParams := do
  let ns ← (parseNs query).toOption
  match path.dropPrefix? (ascii "/v1/watch/") with
  | some keyEncoded =>
    if keyEncoded = [] then none
    else
      some ⟨ns, percentDecode keyEncoded, false, (queryParam query (ascii "since")).bind parseU64⟩
  | none =>
    if path = ascii "/v1/watch" then do
      let prefixRaw ← queryParam query (ascii "prefix")
      some ⟨ns, percentDecode prefixRaw, true, (queryParam query (ascii "since")).bind parseU64⟩
    else none

/-- Where a request goes. -/
inductive Served where
  /-- A path without a key. -/
  | endpoint
  | error (e : HttpError)
  | watch (params : WatchParams)
  /-- The handler of the method, or 405. -/
  | key (method : Method) (ns : Nat) (key : Bytes)
  | incr (ns : Nat) (key : Bytes) (delta : Int)

/-- The paths that `route` compares with. -/
def ownPaths : List Bytes :=
  [ascii "/livez", ascii "/readyz", ascii "/metrics", ascii "/v1/openapi.json",
    ascii "/v1/admin/compact",
    ascii "/v1/kv/batch", ascii "/v1/kv", ascii "/v1/kv/"]

def methodNotAllowed : HttpError := err 405 "method_not_allowed" "method not allowed"

def endpointNotFound : HttpError := err 404 "not_found" "endpoint not found"

def route (method : Method) (path query : Bytes) : Served :=
  if path ∈ ownPaths then .endpoint
  else match path.dropPrefix? (ascii "/v1/kv/") with
    | none => .error endpointNotFound
    | some rest =>
      match parseNs query with
      | .error e => .error e
      | .ok ns =>
        match rest.dropSuffix? (ascii "/incr") with
        | some keyEncoded =>
          if method ≠ .post then .error methodNotAllowed
          else
            let key := percentDecode keyEncoded
            if key = [] then .error endpointNotFound
            else .incr ns key (((queryParam query (ascii "delta")).bind ShardStore.parseI64).getD 1)
        | none =>
          let key := percentDecode rest
          if key = [] then .error endpointNotFound else .key method ns key

def serve (method : Method) (path query : Bytes) : Served :=
  match parseWatchParams path query with
  | some params => if method = .get then .watch params else .error methodNotAllowed
  | none => route method path query

/-- The one key that is addressed. -/
def Served.singleKey : Served → Option Bytes
  | .endpoint => none
  | .error _ => none
  | .watch params => if params.isPrefix then none else some params.key
  | .key _ _ k => some k
  | .incr _ k _ => some k

/-- The request line of HTTP/1.1. An absolute target has a scheme and an authority in front. -/
structure HttpRequest where
  method : Bytes
  origin : Option (Bytes × Bytes)
  path : Bytes
  query : Option Bytes
  version : Bytes
  method_plain : ∀ b ∈ method, b ≠ space ∧ b ≠ newline
  origin_plain : ∀ o ∈ origin, ∀ b ∈ o.1 ++ o.2, b ≠ space ∧ b ≠ newline ∧ b ≠ slash
  path_plain : ∀ b ∈ path, b ≠ space ∧ b ≠ newline ∧ b ≠ questionMark
  query_plain : ∀ q ∈ query, ∀ b ∈ q, b ≠ space ∧ b ≠ newline
  version_plain : newline ∉ version

namespace HttpRequest

def originText (r : HttpRequest) : Bytes :=
  match r.origin with
  | none => []
  | some (scheme, authority) => scheme ++ ascii "://" ++ authority

def queryText (r : HttpRequest) : Bytes :=
  match r.query with
  | none => []
  | some q => questionMark :: q

def target (r : HttpRequest) : Bytes := r.originText ++ (r.path ++ r.queryText)

def line (r : HttpRequest) : Bytes := r.method ++ space :: (r.target ++ space :: r.version)

/-- The key that the handlers use. -/
def singleKey (r : HttpRequest) : Option Bytes :=
  (serve (parseMethod r.method) r.path (r.query.getD [])).singleKey

end HttpRequest

/-! ## The first occurrence -/

section first
variable {needle a b : Bytes} {c : UInt8}

theorem afterFirst_cons (needle : Bytes) (c : UInt8) (s : Bytes) (h : ¬ needle <+: c :: s) :
    afterFirst needle (c :: s) = afterFirst needle s := by
  rw [afterFirst, if_neg]
  rwa [List.isPrefixOf_iff_prefix]

theorem afterFirst_hit (hne : needle ≠ []) {s : Bytes} (h : needle <+: s) :
    afterFirst needle s = some (s.drop needle.length) := by
  cases s with
  | nil => exact absurd (List.prefix_nil.mp h) hne
  | cons c s => rw [afterFirst, if_pos (List.isPrefixOf_iff_prefix.mpr h)]

/-- What does not start the needle is skipped. -/
theorem afterFirst_skip {n : UInt8} {needle a : Bytes} (ha : n ∉ a) (s : Bytes) :
    afterFirst (n :: needle) (a ++ s) = afterFirst (n :: needle) s := by
  induction a with
  | nil => rfl
  | cons c a ih =>
    rw [cons_append, afterFirst_cons, ih fun h => ha (mem_cons_of_mem c h)]
    intro h
    exact ha ((List.cons_prefix_cons.mp h).1 ▸ mem_cons_self)

theorem prefix_part (hc : c ∉ needle) (a b : Bytes) : needle <+: a ++ c :: b ↔ needle <+: a := by
  constructor
  · intro h
    obtain h' | ⟨y, rfl⟩ := List.prefix_or_prefix_of_prefix h (List.prefix_append a (c :: b))
    · exact h'
    · cases y with
      | nil => simp
      | cons d y =>
        obtain ⟨rfl, -⟩ := List.cons_prefix_cons.mp ((List.prefix_append_right_inj a).mp h)
        exact absurd (mem_append_right a mem_cons_self) hc
  · intro h
    exact h.trans (List.prefix_append a _)

/-- A byte that the needle does not have parts the text. -/
theorem afterFirst_part (hc : c ∉ needle) (hne : needle ≠ []) (a b : Bytes) :
    afterFirst needle (a ++ c :: b) = ((afterFirst needle a).map (· ++ c :: b)).or
        (afterFirst needle b) := by
  induction a with
  | nil =>
    rw [nil_append, afterFirst_cons]
    · rfl
    · intro h
      exact hne (List.prefix_nil.mp ((prefix_part hc [] b).mp h))
  | cons d a ih =>
    have hpart := prefix_part hc (d :: a) b
    by_cases h : needle <+: d :: a
    · have hlen : needle.length ≤ (d :: a).length := h.length_le
      rw [afterFirst_hit hne (hpart.mpr h), afterFirst_hit hne h, drop_append_of_le_length hlen]
      rfl
    · rw [afterFirst_cons needle d a h, cons_append, afterFirst_cons, ih]
      exact fun h' => h (hpart.mp h')

theorem afterFirst_eq_none_iff (hne : needle ≠ []) (s : Bytes) :
    afterFirst needle s = none ↔ ¬ needle <:+: s := by
  induction s with
  | nil => simp [afterFirst, hne]
  | cons d s ih =>
    by_cases h : needle <+: d :: s
    · rw [afterFirst_hit hne h]
      exact iff_of_false nofun (not_not_intro h.isInfix)
    · rw [afterFirst_cons needle d s h, ih, List.infix_cons_iff, not_or]
      exact (and_iff_right h).symm

theorem afterFirst_eq_some (hne : needle ≠ []) {s t : Bytes} (h : afterFirst needle s = some t) :
    ∃ u, s = u ++ (needle ++ t) := by
  induction s with
  | nil => cases h
  | cons d s ih =>
    by_cases hpre : needle <+: d :: s
    · rw [afterFirst_hit hne hpre] at h
      obtain ⟨t', ht'⟩ := hpre
      rw [← ht', drop_left] at h
      cases h
      exact ⟨[], ht'.symm⟩
    · rw [afterFirst_cons needle d s hpre] at h
      obtain ⟨u, rfl⟩ := ih h
      exact ⟨d :: u, rfl⟩

end first

/-! ## Both parsers -/

theorem kvRoot_eq : kvRoot = slash :: ascii "v1/kv/" := rfl

/-- An authority is no `v1` in front of `/kv/` if the path goes on with `/v1/`. -/
theorem not_authority {authority : Bytes} (h : slash ∉ authority) (s : Bytes) :
    ¬ ascii "v1/kv/" <+: authority ++ (ascii "/v1/" ++ s) := by
  intro hpre
  obtain ⟨t, ht⟩ := hpre
  rcases authority with _ | ⟨a, _ | ⟨b, _ | ⟨c, authority⟩⟩⟩
  · cases (List.cons.inj ht).1
  · cases (List.cons.inj (List.cons.inj ht).2).1
  · cases (List.cons.inj (List.cons.inj (List.cons.inj (List.cons.inj ht).2).2).2).1
  · have hc : slash = c := (List.cons.inj (List.cons.inj (List.cons.inj ht).2).2).1
    exact h (by simp [hc])

theorem keyAfter_query (after q : Bytes) :
    keyAfter (after ++ questionMark :: q) = keyAfter after := by
  have hstop :
    (after ++ questionMark :: q).takeWhile (fun b => !(b == questionMark || b == space)) =
      after.takeWhile fun b => !(b == questionMark || b == space) := by
    rw [takeWhile_append]
    split
    · rename_i hall
      rw [takeWhile_cons_of_neg (by decide), append_nil]
      exact ((List.takeWhile_prefix _).eq_of_length hall).symm
    · rfl
  simp only [keyAfter, hstop]

/-- The path of an increment without its end. -/
def keyPart (rest : Bytes) : Bytes := (rest.dropSuffix? (ascii "/incr")).getD rest

theorem keyAfter_plain {rest : Bytes} (h : ∀ b ∈ rest, b ≠ questionMark ∧ b ≠ space) :
    keyAfter rest = if keyPart rest = [] then none else some (percentDecode (keyPart rest)) := by
  have hall : rest.takeWhile (fun b => !(b == questionMark || b == space)) = rest := by
    refine takeWhile_eq_self_iff.mpr fun b hb => ?_
    simp [(h b hb).1, (h b hb).2]
  simp only [keyAfter, hall]
  split
  · rename_i hnil
    subst hnil
    rfl
  · rfl

namespace HttpRequest
variable (r : HttpRequest)

theorem target_plain : ∀ b ∈ r.target, b ≠ space ∧ b ≠ newline := by
  intro b hb
  obtain hb | hb := mem_append.mp hb
  · unfold originText at hb
    split at hb
    · cases hb
    · rename_i scheme authority horigin
      obtain hb | hb : b ∈ ascii "://" ∨ b ∈ scheme ++ authority := by
        simp only [mem_append] at hb ⊢
        tauto
      · exact (by decide +kernel : ∀ b ∈ ascii "://", b ≠ space ∧ b ≠ newline) b hb
      · have hplain := r.origin_plain _ horigin b hb
        exact ⟨hplain.1, hplain.2.1⟩
  · obtain hb | hb := mem_append.mp hb
    · have hplain := r.path_plain b hb
      exact ⟨hplain.1, hplain.2.1⟩
    · unfold queryText at hb
      split at hb
      · cases hb
      · rename_i q hq
        obtain rfl | hb := mem_cons.mp hb
        · decide
        · exact r.query_plain q hq b hb

/-- The peek finds the target of the request line. -/
theorem peekHttpKey_line (rest : Bytes) :
    peekHttpKey (r.line ++ newline :: rest) = keyInTarget r.target := by
  have hline : newline ∉ r.line := by
    simp only [line, mem_append, mem_cons, not_or]
    exact ⟨fun h => (r.method_plain _ h).2 rfl,
      by decide, fun h => (r.target_plain _ h).2 rfl, by decide, r.version_plain⟩
  have hsplit : r.line.splitOn space = r.method :: r.target :: r.version.splitOn space := by
    rw [line, splitOn_part fun h => (r.method_plain _ h).1 rfl, splitOn_part fun h =>
      (r.target_plain _ h).1 rfl]
  rw [peekHttpKey, span_part hline]
  simp only [hsplit, getElem?_cons_succ, getElem?_cons_zero, bind, Option.bind]

/-- Nothing in front of the path looks like `/v1/kv/`. -/
theorem afterFirst_origin {s : Bytes} (hpath : r.path = ascii "/v1/" ++ s) :
    afterFirst kvRoot r.target = afterFirst kvRoot (r.path ++ r.queryText) := by
  unfold target originText
  split
  · rfl
  · rename_i scheme authority horigin
    have hslash : slash ∉ scheme ++ authority := fun h => (r.origin_plain _ horigin _ h).2.2 rfl
    rw [mem_append, not_or] at hslash
    have hsplit : scheme ++ ascii "://" ++ authority ++ (r.path ++ r.queryText) =
        scheme ++ ([58] ++ (slash :: slash :: (authority ++ (r.path ++ r.queryText)))) := by
      simp only [append_assoc]
      rfl
    rw [hsplit, kvRoot_eq, afterFirst_skip hslash.1, afterFirst_skip (by decide), afterFirst_cons,
      afterFirst_cons,
      afterFirst_skip hslash.2]
    · intro h
      refine not_authority hslash.2 (s ++ r.queryText) ?_
      have h := (List.cons_prefix_cons.mp h).2
      rwa [hpath, append_assoc] at h
    · intro h
      have h := (List.cons_prefix_cons.mp h).2
      cases (List.cons_prefix_cons.mp h).1

theorem keyInTarget_target {s : Bytes} (hpath : r.path = ascii "/v1/" ++ s) :
    keyInTarget r.target = match afterFirst kvRoot r.path with
      | some after => keyAfter after
      | none => r.query.bind keyInTarget := by
  rw [keyInTarget, r.afterFirst_origin hpath]
  unfold queryText
  cases r.query with
  | none =>
    rw [append_nil]
    cases afterFirst kvRoot r.path <;> rfl
  | some q =>
    rw [afterFirst_part (by decide) (by decide)]
    cases afterFirst kvRoot r.path with
    | none => rfl
    | some after => exact keyAfter_query after q

end HttpRequest

theorem parseWatchParams_key {path query : Bytes} {params : WatchParams}
    (h : parseWatchParams path query = some params)
    (hkey : params.isPrefix = false) : ∃ rest, path = ascii "/v1/watch/" ++ rest
    ∧ params.key = percentDecode rest := by
  obtain ⟨ns, -, h⟩ := Option.bind_eq_some_iff.mp h
  split at h
  · rename_i rest hrest
    split at h
    · cases h
    · cases h
      obtain ⟨root, rfl, hroot⟩ := dropPrefix?_eq_some_iff.mp hrest
      exact ⟨rest, by rw [beq_iff_eq.mp hroot], rfl⟩
  · split at h
    · obtain ⟨raw, -, h⟩ := Option.bind_eq_some_iff.mp h
      cases h
      cases hkey
    · cases h

theorem route_key {method : Method} {path query key : Bytes}
    (h : (route method path query).singleKey = some key) :
    ∃ rest, path = kvRoot ++ rest ∧ keyPart rest ≠ [] ∧ key = percentDecode (keyPart rest) := by
  unfold route at h
  split at h
  · cases h
  · split at h
    · cases h
    · rename_i rest hrest
      obtain ⟨root, rfl, hroot⟩ := dropPrefix?_eq_some_iff.mp hrest
      refine ⟨rest, by rw [beq_iff_eq.mp hroot]; rfl, ?_⟩
      split at h
      · cases h
      · split at h
        · rename_i keyEncoded hincr
          rw [keyPart, hincr, Option.getD_some]
          split at h
          · cases h
          · simp only at h
            split at h
            · cases h
            · rename_i hne
              cases h
              exact ⟨fun hnil => hne (by rw [hnil]; rfl), rfl⟩
        · rename_i hplain
          rw [keyPart, hplain, Option.getD_none]
          simp only at h
          split at h
          · cases h
          · rename_i hne
            cases h
            exact ⟨fun hnil => hne (by rw [hnil]; rfl), rfl⟩

/-- A request with a key is under `/v1/kv/`, or is a watch. -/
theorem HttpRequest.singleKey_cases {r : HttpRequest} {key : Bytes} (h : r.singleKey = some key) :
    (∃ rest, r.path = kvRoot ++ rest ∧ keyPart rest ≠ [] ∧ key = percentDecode (keyPart rest)) ∨
      ∃ rest, r.path = ascii "/v1/watch/" ++ rest ∧ key = percentDecode rest := by
  unfold singleKey serve at h
  split at h
  · rename_i params hparams
    split at h
    · unfold Served.singleKey at h
      simp only at h
      split at h
      · cases h
      · rename_i hkey
        cases h
        exact .inr (parseWatchParams_key hparams (Bool.eq_false_iff.mpr hkey))
    · cases h
  · exact .inl (route_key h)

theorem length_keyPart (rest : Bytes) :
    (percentDecode (keyPart rest)).length ≤ (percentDecode rest).length := by
  unfold keyPart
  cases hincr : rest.dropSuffix? (ascii "/incr") with
  | none => exact Nat.le_refl _
  | some k =>
    obtain ⟨tail, rfl, htail⟩ := dropSuffix?_eq_some_iff.mp hincr
    have htail : tail = slash :: ascii "incr" := beq_iff_eq.mp htail
    rw [htail, percentDecode_part (by decide) (by decide), length_append]
    exact Nat.le_add_right _ _

/-- A watched key is longer than what the peek finds in it. -/
theorem watched_ne {rest after : Bytes} (h : afterFirst kvRoot (slash :: rest) = some after) :
    percentDecode (keyPart after) ≠ percentDecode rest := by
  obtain ⟨u, hu⟩ := afterFirst_eq_some (by decide) h
  obtain ⟨a, rfl⟩ : ∃ a, rest = a ++ slash :: after := by
    cases u with
    | nil => exact ⟨ascii "v1/kv", (List.cons.inj hu).2⟩
    | cons d u => exact ⟨u ++ ascii "/v1/kv", by rw [(List.cons.inj hu).2, append_assoc]; rfl⟩
  intro heq
  have hlen := congrArg List.length heq
  have hpart := length_keyPart after
  rw [percentDecode_part (by decide) (by decide), length_append, length_cons] at hlen
  omega

/-- In the path of a watch the first occurrence is in the key. -/
theorem afterFirst_watch (s : Bytes) : ¬ kvRoot <+: ascii "/v1/watch/" ++ s ∧
    afterFirst kvRoot (ascii "/v1/watch/" ++ s) = afterFirst kvRoot (slash :: s) := by
  have hstart : ¬ kvRoot <+: ascii "/v1/watch/" ++ s := by
    rintro ⟨t, ht⟩
    simp [kvRoot, ascii] at ht
  refine ⟨hstart, ?_⟩
  have hsplit :
    ascii "/v1/watch/" ++ s = slash :: (ascii "v1" ++ slash :: (ascii "watch" ++ slash :: s)) := rfl
  rw [hsplit] at hstart ⊢
  rw [afterFirst_cons _ _ _ hstart, kvRoot_eq, afterFirst_skip (by decide), afterFirst_cons,
    afterFirst_skip (by decide)]
  rintro ⟨t, ht⟩
  simp [ascii] at ht

/-- The peek finds the key of a request exactly if the request is under `/v1/kv/`, or is a watch
whose query holds a `/v1/kv/` with the key behind it. -/
theorem peek_agrees_iff (r : HttpRequest) (rest : Bytes) {key : Bytes}
    (h : r.singleKey = some key) :
    peekHttpKey (r.line ++ newline :: rest) = some key ↔
      kvRoot <+: r.path ∨ (¬ kvRoot <:+: r.path ∧ r.query.bind keyInTarget = some key) := by
  have hplain : ∀ {s : Bytes}, s <:+ r.path → ∀ b ∈ s, b ≠ questionMark ∧ b ≠ space :=
    fun hs b hb =>
    ⟨(r.path_plain b (hs.subset hb)).2.2, (r.path_plain b (hs.subset hb)).1⟩
  rw [r.peekHttpKey_line]
  obtain ⟨s, hpath, hne, rfl⟩ | ⟨s, hpath, rfl⟩ := HttpRequest.singleKey_cases h
  · have hv1 : r.path = ascii "/v1/" ++ (ascii "kv/" ++ s) := hpath
    have hpre : kvRoot <+: r.path := ⟨s, hpath.symm⟩
    refine iff_of_true ?_ (.inl hpre)
    have hfirst : afterFirst kvRoot r.path = some s := by
      rw [afterFirst_hit (by decide) hpre, hpath, drop_left]
    rw [r.keyInTarget_target hv1, hfirst]
    simp only
    rw [keyAfter_plain (hplain ⟨kvRoot, hpath.symm⟩), if_neg hne]
  · have hv1 : r.path = ascii "/v1/" ++ (ascii "watch/" ++ s) := hpath
    obtain ⟨hnot, hfirst⟩ := afterFirst_watch s
    rw [← hpath] at hnot hfirst
    rw [or_iff_right hnot, r.keyInTarget_target hv1, ← afterFirst_eq_none_iff (by decide)]
    cases hafter : afterFirst kvRoot r.path with
    | none => simp
    | some after =>
      refine iff_of_false ?_ ?_
      · obtain ⟨u, hu⟩ := afterFirst_eq_some (by decide) hafter
        have hsuffix : after <:+ r.path := ⟨u ++ kvRoot, by rw [hu, append_assoc]⟩
        simp only
        rw [keyAfter_plain (hplain hsuffix)]
        split
        · nofun
        · intro heq
          exact watched_ne (hfirst ▸ hafter) (Option.some.inj heq)
      · rintro ⟨hnone, -⟩
        cases hnone

/-- `GET /v1/kv/a%20b/c?x=1`. -/
theorem peek_agrees_get :
    let r : HttpRequest :=
      ⟨ascii "GET", none, ascii "/v1/kv/a%20b/c", some (ascii "x=1"), ascii "HTTP/1.1\r",
        by decide +kernel,
        nofun, by decide +kernel, by decide +kernel, by decide +kernel⟩
    r.singleKey = some (ascii "a b/c") ∧ peekHttpKey (r.line ++ newline :: ascii "Host: x")
        = some (ascii "a b/c") := by
  intro r
  have hkey : r.singleKey = some (ascii "a b/c") := by decide +kernel
  exact ⟨hkey, (peek_agrees_iff r (ascii "Host: x") hkey).mpr (.inl (by decide +kernel))⟩

/-- A watch of the key `k`. -/
theorem peek_misses_watch :
    let r : HttpRequest :=
      ⟨ascii "GET", none, ascii "/v1/watch/k", none, ascii "HTTP/1.1\r",
        by decide +kernel, nofun, by decide +kernel,
        nofun, by decide +kernel⟩
    r.singleKey = some (ascii "k") ∧ peekHttpKey (r.line ++ newline :: ascii "Host: x") = none := by
  decide +kernel

end BeyondKv.Server.Http
