/-
# Commands

`Command::parse` reads a command from the array of a request: the name, in any case, then the
arguments by position, then options by keyword. An option is looked for where only options can be,
with one exception: `WATCH` takes any number of keys and looks for `SINCE` in the last place but
one. There a key of this name is taken for the option, and the key behind it for the revision.

`parse_words_iff` runs over all commands: what is written for a command is read as that command
unless it is such a `WATCH`, or has no keys where it needs some.
-/
import BeyondKv.Server.Expiry
import BeyondKv.Server.Pages

namespace BeyondKv.Server.Resp

open Http ShardStore List

/-! ## The commands -/

inductive Command where
  | get (key : Bytes)
  | set (key value : Bytes) (args : SetArgs)
  | del (keys : List Bytes)
  | exist (keys : List Bytes)
  | expire (key : Bytes) (secs : UInt64)
  | pexpire (key : Bytes) (millis : UInt64)
  | expireAt (key : Bytes) (unixSecs : UInt64)
  | pexpireAt (key : Bytes) (unixMillis : UInt64)
  | ttl (key : Bytes)
  | pttl (key : Bytes)
  | persist (key : Bytes)
  | keys (pattern : Option Bytes)
  | scan (cursor : Bytes) (pattern : Option Bytes) (count : UInt64)
  | mget (keys : List Bytes)
  | mset (pairs : List (Bytes × Bytes))
  | getset (key value : Bytes)
  | setnx (key value : Bytes)
  | getdel (key : Bytes)
  | getex (key : Bytes) (ttl : Option GetExTtl)
  | incr (key : Bytes)
  | incrBy (key : Bytes) (delta : Int64)
  | decr (key : Bytes)
  | decrBy (key : Bytes) (delta : Int64)
  | hello (version : Option UInt8)
  | ping (message : Option Bytes)
  | select (db : UInt64)
  | dbsize
  | flushdb
  | bgrewriteaof
  | quit
  | reset
  | watch (keys : List Bytes) (since : Option UInt64)
  | pwatch (start : Bytes) (since : Option UInt64)
  | unwatch
  | revision (key : Bytes)
  | setrev (key value : Bytes) (revision : UInt64) (ttl : Option SetTtl)
  | delrev (key : Bytes) (revision : UInt64)
  | getmeta (key : Bytes)

/-- The names that `parse` knows. -/
inductive Name where
  | get | set | del | exist | expire | pexpire | expireAt | pexpireAt | ttl | pttl | persist
      | keys | scan | mget
  | mset | getset | setnx | getdel | getex | incr | incrBy | decr | decrBy | hello | ping
      | select | dbsize
  | flushdb | bgrewriteaof | quit | reset | watch | pwatch | unwatch | revision | setrev | delrev
      | getmeta | command
  deriving DecidableEq

def Name.table : List (Name × String) :=
  [(.get, "GET"), (.set, "SET"), (.del, "DEL"), (.exist, "EXISTS"), (.expire, "EXPIRE"),
    (.pexpire, "PEXPIRE"),
   (.expireAt, "EXPIREAT"), (.pexpireAt, "PEXPIREAT"), (.ttl, "TTL"), (.pttl, "PTTL"),
   (.persist, "PERSIST"),
   (.keys, "KEYS"), (.scan, "SCAN"), (.mget, "MGET"), (.mset, "MSET"), (.getset, "GETSET"),
   (.setnx, "SETNX"),
   (.getdel, "GETDEL"), (.getex, "GETEX"), (.incr, "INCR"), (.incrBy, "INCRBY"), (.decr, "DECR"),
   (.decrBy, "DECRBY"), (.hello, "HELLO"), (.ping, "PING"), (.select, "SELECT"),
   (.dbsize, "DBSIZE"),
   (.bgrewriteaof, "BGREWRITEAOF"), (.flushdb, "FLUSHDB"), (.quit, "QUIT"), (.reset, "RESET"),
   (.watch, "WATCH"),
   (.pwatch, "PWATCH"), (.unwatch, "UNWATCH"), (.revision, "REVISION"), (.setrev, "SETREV"),
   (.delrev, "DELREV"),
   (.getmeta, "GETMETA"), (.command, "COMMAND")]

/-- The keywords of options. -/
inductive Keyword where
  | ex | px | exat | pxat | nx | xx | get | keepTtl | rev | metadata | persist | matching
      | count | since
  deriving DecidableEq

def Keyword.table : List (Keyword × String) :=
  [(.ex, "EX"), (.px, "PX"), (.exat, "EXAT"), (.pxat, "PXAT"), (.nx, "NX"), (.xx, "XX"),
    (.get, "GET"),
   (.keepTtl, "KEEPTTL"), (.rev, "REV"), (.metadata, "META"), (.persist, "PERSIST"),
   (.matching, "MATCH"),
   (.count, "COUNT"), (.since, "SINCE")]

/-- A word of one of the tables, in any case. -/
def ofBytes {α : Type} (table : List (α × String)) (b : Bytes) : Option α :=
  (table.find? fun e => ascii e.2 == b.map toAsciiUppercase).map Prod.fst

/-- As it is written. -/
def word {α : Type} [DecidableEq α] (table : List (α × String)) (a : α) : Bytes :=
  ((table.find? fun e => e.1 = a).map fun e => ascii e.2).getD []

abbrev Name.text (n : Name) : Bytes := word Name.table n

abbrev Keyword.text (k : Keyword) : Bytes := word Keyword.table k

theorem Name.ofBytes_text (n : Name) : ofBytes Name.table n.text = some n ∧ n.text.length ≤ 16 := by
  cases n <;> decide +kernel

theorem Keyword.ofBytes_text (k : Keyword) : ofBytes Keyword.table k.text = some k
    ∧ k.text.length ≤ 7 := by
  cases k <;> decide +kernel

/-! ## `parse` -/

@[simp] theorem ok_bind {ε α β : Type} (a : α) (f : α → Except ε β) :
    (Except.ok a >>= f) = f a := rfl

@[simp] theorem pure_eq_ok {ε α : Type} (a : α) : (pure a : Except ε α) = .ok a := rfl

def parseU64 (v : Value) : Except ProtoError UInt64 := do
  let b ← bulk v
  match atoiU64 b with
  | some n => return n
  | none => throw (.invalidInteger b)

/-- `atoi_i64` takes the same numbers as `str::parse`. -/
def parseDelta (v : Value) : Except ProtoError Int64 := do
  let b ← bulk v
  match ShardStore.parseI64 b with
  | some n => return Int64.ofInt n
  | none => throw (.invalidInteger b)

def parseVersion (v : Value) : Except ProtoError UInt8 := do
  let b ← bulk v
  match atoiU64 b with
  | some n => if n.toNat < 256 then return UInt8.ofNat n.toNat else throw (.invalidInteger b)
  | none => throw (.invalidInteger b)

section forms
variable (cmd : String)

/-- A command of no more than one argument. -/
def oneArg {α : Type} (read : Value → Except ProtoError α) (make : α → Command) :
    List Value → Except ProtoError Command
  | [a] => do return make (← read a)
  | _ => throw (.wrongArity cmd)

def twoArgs {α : Type} (read : Value → Except ProtoError α) (make : Bytes → α → Command) :
    List Value → Except ProtoError Command
  | [k, a] => do
    let key ← bulk k
    return make key (← read a)
  | _ => throw (.wrongArity cmd)

def manyKeys (make : List Bytes → Command) (args : List Value) : Except ProtoError Command :=
  if args.isEmpty then throw (.wrongArity cmd) else do return make (← args.mapM bulk)

/-- An argument that may be missing; what follows it is not looked at. -/
def maybeArg {α : Type} (read : Value → Except ProtoError α) (make : Option α → Command) :
    List Value → Except ProtoError Command
  | [] => return make none
  | a :: _ => do return make (some (← read a))

/-- What an option does to the options read so far. -/
inductive Takes (σ : Type) where
  | flag (f : σ → σ)
  | value (f : Bytes → Except ProtoError (σ → σ))

/-- The loop over the options; its buffer has `max` bytes. -/
def options {σ : Type} (max : Nat) (takes : Keyword → Option (Takes σ)) :
    List Value → σ → Except ProtoError σ
  | [], s => return s
  | v :: rest, s => do
    let opt ← bulk v
    match if opt.length ≤ max then (ofBytes Keyword.table opt).bind takes else none with
    | none => throw (.syntaxNear opt)
    | some (.flag f) => options max takes rest (f s)
    | some (.value f) =>
      match rest with
      | [] => throw (.wrongArity cmd)
      | raw :: rest => do
        let raw ← bulk raw
        let g ← f raw
        options max takes rest (g s)

end forms

def number {α : Type} (make : UInt64 → α) (raw : Bytes) : Except ProtoError α :=
  match atoiU64 raw with
  | some n => return make n
  | none => throw (.invalidInteger raw)

/-- `EX` and `PX` refuse a zero. -/
def positive {α : Type} (make : UInt64 → α) (raw : Bytes) : Except ProtoError α :=
  match atoiU64 raw with
  | some n => if n = 0 then throw (.invalidExpiry raw) else return make n
  | none => throw (.invalidInteger raw)

def ttlTakes {σ : Type} (put : SetTtl → σ → σ) : Keyword → Option (Takes σ)
  | .ex => some (.value (positive fun n => put (.seconds n)))
  | .px => some (.value (positive fun n => put (.millis n)))
  | .exat => some (.value (number fun n => put (.unixSecs n)))
  | .pxat => some (.value (number fun n => put (.unixMillis n)))
  | _ => none

def setTakes : Keyword → Option (Takes SetArgs)
  | .nx => some (.flag fun a => { a with condition := .nx })
  | .xx => some (.flag fun a => { a with condition := .xx })
  | .get => some (.flag fun a => { a with get := true })
  | .keepTtl => some (.flag fun a => { a with keepTtl := true })
  | .rev => some (.value (number fun n a => { a with condition := .rev n }))
  | .metadata => some (.value fun b => return fun a => { a with metaBytes := some b })
  | k => ttlTakes (fun t a => { a with ttl := some t }) k

def getexTakes : Keyword → Option (Takes (Option GetExTtl))
  | .persist => some (.flag fun _ => some .persist)
  | k => ttlTakes (fun t _ => some (.set t)) k

def parseSet : List Value → Except ProtoError Command
  | k :: v :: rest => do
    let key ← bulk k
    let value ← bulk v
    return .set key value (← options "SET" 7 setTakes rest ⟨none, .always, false, false, none⟩)
  | _ => throw (.wrongArity "SET")

def parseSetrev : List Value → Except ProtoError Command
  | k :: v :: r :: rest => do
    let key ← bulk k
    let value ← bulk v
    let revision ← parseU64 r
    return .setrev key value revision (← options "SETREV" 4 (ttlTakes fun t _ => some t) rest none)
  | _ => throw (.wrongArity "SETREV")

def parseGetex : List Value → Except ProtoError Command
  | k :: rest => do
    let key ← bulk k
    return .getex key (← options "GETEX" 7 getexTakes rest none)
  | _ => throw (.wrongArity "GETEX")

def parseMset (args : List Value) : Except ProtoError Command :=
  if args.isEmpty ∨ args.length % 2 ≠ 0 then throw (.wrongArity "MSET")
    else do return .mset (← pairs args)
where
  pairs : List Value → Except ProtoError (List (Bytes × Bytes))
    | k :: v :: rest => do
      let key ← bulk k
      let value ← bulk v
      return (key, value) :: (← pairs rest)
    | _ => return []

/-- `SINCE`, in the buffer of five bytes. -/
def isSince (b : Bytes) : Bool := decide (b.length ≤ 5) && b.map toAsciiUppercase == ascii "SINCE"

/-- The keys are read from the end: the last two arguments may be the option. -/
def parseWatch (args : List Value) : Except ProtoError Command :=
  match args.reverse with
  | [] => throw (.wrongArity "WATCH")
  | last :: maybeSince :: front => do
    let b ← bulk maybeSince
    if isSince b then
      let since ← parseU64 last
      return .watch (← front.reverse.mapM bulk) (some since)
    else return .watch (← args.mapM bulk) none
  | _ => do return .watch (← args.mapM bulk) none

def parsePwatch : List Value → Except ProtoError Command
  | [] => throw (.wrongArity "PWATCH")
  | p :: rest => do
    let start ← bulk p
    match rest with
    | maybeSince :: n :: _ => do
      let b ← bulk maybeSince
      if isSince b then return .pwatch start (some (← parseU64 n)) else return .pwatch start none
    | _ => return .pwatch start none

/-- The command of a name. -/
def parseArgs (args : List Value) : Name → Except ProtoError Command
  | .get => oneArg "GET" bulk .get args
  | .set => parseSet args
  | .del => manyKeys "DEL" .del args
  | .exist => manyKeys "EXISTS" .exist args
  | .expire => twoArgs "EXPIRE" parseU64 .expire args
  | .pexpire => twoArgs "PEXPIRE" parseU64 .pexpire args
  | .expireAt => twoArgs "EXPIREAT" parseU64 .expireAt args
  | .pexpireAt => twoArgs "PEXPIREAT" parseU64 .pexpireAt args
  | .ttl => oneArg "TTL" bulk .ttl args
  | .pttl => oneArg "PTTL" bulk .pttl args
  | .persist => oneArg "PERSIST" bulk .persist args
  | .keys => maybeArg bulk .keys args
  | .scan => do
    let (cursor, pattern, count) ← parseScan args
    return .scan cursor pattern count
  | .mget => manyKeys "MGET" .mget args
  | .mset => parseMset args
  | .getset => twoArgs "GETSET" bulk .getset args
  | .setnx => twoArgs "SETNX" bulk .setnx args
  | .getdel => oneArg "GETDEL" bulk .getdel args
  | .getex => parseGetex args
  | .incr => oneArg "INCR" bulk .incr args
  | .incrBy => twoArgs "INCRBY" parseDelta .incrBy args
  | .decr => oneArg "DECR" bulk .decr args
  | .decrBy => twoArgs "DECRBY" parseDelta .decrBy args
  | .hello => maybeArg parseVersion .hello args
  | .ping => maybeArg bulk .ping args
  | .select => oneArg "SELECT" parseU64 .select args
  | .dbsize => return .dbsize
  | .bgrewriteaof => return .bgrewriteaof
  | .flushdb => if args.isEmpty then return .flushdb else throw (.wrongArity "FLUSHDB")
  | .quit => return .quit
  | .reset => return .reset
  | .watch => parseWatch args
  | .pwatch => parsePwatch args
  | .unwatch => return .unwatch
  | .revision => oneArg "REVISION" bulk .revision args
  | .setrev => parseSetrev args
  | .delrev => twoArgs "DELREV" parseU64 .delrev args
  | .getmeta => oneArg "GETMETA" bulk .getmeta args
  -- clients ask for it to find out what the server can do
  | .command => return .ping none

/-- `Command::parse` of an array; anything else is refused as an empty one is. -/
def parse : List Value → Except ProtoError Command
  | [] => throw (.invalidFormat "expected non-empty array")
  | name :: args => do
    let nameBytes ← bulk name
    match if nameBytes.length ≤ 16 then ofBytes Name.table nameBytes else none with
    | some n => parseArgs args n
    | none => throw (.unknownCommand nameBytes)

/-! ## Writing a command -/

def decimal (n : UInt64) : Bytes := natBytes n.toNat

structure Opt where
  keyword : Keyword
  value : Option Bytes

def Opt.words (o : Opt) : List Bytes := o.keyword.text :: o.value.toList

def ttlOpt : SetTtl → Opt
  | .seconds n => ⟨.ex, some (decimal n)⟩
  | .millis n => ⟨.px, some (decimal n)⟩
  | .unixSecs n => ⟨.exat, some (decimal n)⟩
  | .unixMillis n => ⟨.pxat, some (decimal n)⟩

def getexOpt : GetExTtl → Opt
  | .set t => ttlOpt t
  | .persist => ⟨.persist, none⟩

def conditionOpts : SetCondition → List Opt
  | .always => []
  | .nx => [⟨.nx, none⟩]
  | .xx => [⟨.xx, none⟩]
  | .rev n => [⟨.rev, some (decimal n)⟩]

def setOpts (a : SetArgs) : List Opt :=
  (a.ttl.map ttlOpt).toList ++ conditionOpts a.condition
    ++ (if a.get then [⟨.get, none⟩] else []) ++
    (if a.keepTtl then [⟨.keepTtl, none⟩] else [])
    ++ (a.metaBytes.map fun b => ⟨.metadata, some b⟩).toList

/-- The options of a command. The count of a `SCAN` may be left out if it is the one it has
anyway. -/
def Command.opts (explicit : Bool) : Command → List Opt
  | .set _ _ a => setOpts a
  | .scan _ pattern count =>
    (pattern.map fun p => ⟨.matching, some p⟩).toList ++
      if count = 10 ∧ explicit = false then [] else [⟨.count, some (decimal count)⟩]
  | .getex _ t => (t.map getexOpt).toList
  | .setrev _ _ _ t => (t.map ttlOpt).toList
  | .watch _ since | .pwatch _ since => (since.map fun n => ⟨.since, some (decimal n)⟩).toList
  | _ => []

/-- The name of a command and its arguments. -/
def Command.words : Command → Name × List Bytes
  | .get key => (.get, [key])
  | .set key value _ => (.set, [key, value])
  | .del ks => (.del, ks)
  | .exist ks => (.exist, ks)
  | .expire key n => (.expire, [key, decimal n])
  | .pexpire key n => (.pexpire, [key, decimal n])
  | .expireAt key n => (.expireAt, [key, decimal n])
  | .pexpireAt key n => (.pexpireAt, [key, decimal n])
  | .ttl key => (.ttl, [key])
  | .pttl key => (.pttl, [key])
  | .persist key => (.persist, [key])
  | .keys pattern => (.keys, pattern.toList)
  | .scan cursor _ _ => (.scan, [cursor])
  | .mget ks => (.mget, ks)
  | .mset pairs => (.mset, pairs.flatMap fun p => [p.1, p.2])
  | .getset key value => (.getset, [key, value])
  | .setnx key value => (.setnx, [key, value])
  | .getdel key => (.getdel, [key])
  | .getex key _ => (.getex, [key])
  | .incr key => (.incr, [key])
  | .incrBy key delta => (.incrBy, [key, intBytes delta.toInt])
  | .decr key => (.decr, [key])
  | .decrBy key delta => (.decrBy, [key, intBytes delta.toInt])
  | .hello version => (.hello, (version.map fun v => natBytes v.toNat).toList)
  | .ping message => (.ping, message.toList)
  | .select db => (.select, [decimal db])
  | .dbsize => (.dbsize, [])
  | .flushdb => (.flushdb, [])
  | .bgrewriteaof => (.bgrewriteaof, [])
  | .quit => (.quit, [])
  | .reset => (.reset, [])
  | .watch ks _ => (.watch, ks)
  | .pwatch start _ => (.pwatch, [start])
  | .unwatch => (.unwatch, [])
  | .revision key => (.revision, [key])
  | .setrev key value n _ => (.setrev, [key, value, decimal n])
  | .delrev key n => (.delrev, [key, decimal n])
  | .getmeta key => (.getmeta, [key])

/-- The array of a command, with its options in this order. -/
def Command.write (c : Command) (opts : List Opt) : List Value :=
  ((c.words.1.text :: c.words.2) ++ opts.flatMap Opt.words).map .bulkString

def ttlPositive : SetTtl → Prop
  | .seconds n | .millis n => n ≠ 0
  | .unixSecs _ | .unixMillis _ => True

/-- What is given to `EX` and `PX` is not zero. -/
def Command.Positive : Command → Prop
  | .set _ _ a => ∀ t, a.ttl = some t → ttlPositive t
  | .setrev _ _ _ x => ∀ t, x = some t → ttlPositive t
  | .getex _ x => ∀ t, x = some (.set t) → ttlPositive t
  | _ => True

/-- The keys of a `WATCH` end with `SINCE` and another one. -/
def LooksSince (keys : List Bytes) : Prop :=
  ∃ front b last, keys = front ++ [b, last] ∧ b.map toAsciiUppercase = ascii "SINCE"

def Command.Clean : Command → Prop
  | .del ks | .exist ks | .mget ks => ks ≠ []
  | .mset ps => ps ≠ []
  | .watch ks none => ks ≠ [] ∧ ¬ LooksSince ks
  | _ => True

/-! ## Reading it back -/

theorem atoiU64_decimal (n : UInt64) : atoiU64 (decimal n) = some n := by
  simp [atoiU64, decimal, parseDigits_natBytes, n.toNat_lt]

theorem parseU64_decimal (n : UInt64) : parseU64 (.bulkString (decimal n)) = .ok n := by
  simp [parseU64, bulk, atoiU64_decimal]

theorem number_decimal {α : Type} (make : UInt64 → α) (n : UInt64) :
    number make (decimal n) = .ok (make n) := by
  simp [number, atoiU64_decimal]

theorem parseDelta_intBytes (n : Int64) : parseDelta (.bulkString (intBytes n.toInt)) = .ok n := by
  have hin : inI64 n.toInt = true := by
    have hle : -9223372036854775808 ≤ n.toInt := n.le_toInt
    have hlt : n.toInt < 9223372036854775808 := n.toInt_lt
    simp [inI64, hle, hlt]
  simp [parseDelta, bulk, parseI64_intBytes hin]

theorem parseVersion_natBytes (n : UInt8) :
    parseVersion (.bulkString (natBytes n.toNat)) = .ok n := by
  have hdecimal : atoiU64 (natBytes n.toNat) = some n.toUInt64 := by
    rw [← UInt8.toNat_toUInt64]
    exact atoiU64_decimal n.toUInt64
  have hlt : n.toNat < 256 := n.toNat_lt
  simp [parseVersion, bulk, hdecimal, hlt]

theorem mapM_bulk (bs : List Bytes) : bs.mapM (bulk ∘ Value.bulkString) = .ok bs := by
  induction bs with
  | nil => rfl
  | cons b bs ih => simp [ih, bulk]

theorem pairs_words (ps : List (Bytes × Bytes)) :
    parseMset.pairs ((ps.flatMap fun p => [p.1, p.2]).map .bulkString) = .ok ps := by
  induction ps with
  | nil => rfl
  | cons p ps ih => simp [parseMset.pairs, ih, bulk]

theorem isSince_iff (b : Bytes) : isSince b = true ↔ b.map toAsciiUppercase = ascii "SINCE" := by
  simp only [isSince, Bool.and_eq_true, decide_eq_true_eq, beq_iff_eq, and_iff_right_iff_imp]
  intro h
  have hlength := congrArg List.length h
  rw [length_map] at hlength
  exact hlength.le

/-! ## Options -/

section options
variable {σ : Type} {max : Nat} {takes : Keyword → Option (Takes σ)}

/-- An option that is read as a change of what has been read so far. -/
def Sets (max : Nat) (takes : Keyword → Option (Takes σ)) (o : Opt) (g : σ → σ) : Prop :=
  o.keyword.text.length ≤ max ∧
    match o.value with
    | none => takes o.keyword = some (.flag g)
    | some raw => ∃ f, takes o.keyword = some (.value f) ∧ f raw = .ok g

theorem options_words (cmd : String) (g : Opt → σ → σ) :
    ∀ (opts : List Opt) (s : σ), (∀ o ∈ opts, Sets max takes o (g o)) →
    options cmd max takes ((opts.flatMap Opt.words).map .bulkString) s
      = .ok (opts.foldl (fun s o => g o s) s)
  | [], s, _ => rfl
  | ⟨k, v⟩ :: opts, s, h => by
    obtain ⟨hlen, hv⟩ := h _ (mem_cons_self ..)
    have ih := options_words cmd g opts (g ⟨k, v⟩ s) fun o ho => h o (mem_cons_of_mem _ ho)
    cases v with
    | none =>
      have htakes : takes k = some (.flag (g ⟨k, none⟩)) := hv
      simpa [Opt.words, options, bulk, hlen, k.ofBytes_text.1, htakes] using ih
    | some raw =>
      obtain ⟨f, htakes, hf⟩ := hv
      simpa [Opt.words, options, bulk, hlen, k.ofBytes_text.1, htakes, hf] using ih

/-- The options of the time to live are the same everywhere. -/
theorem sets_ttlOpt (put : SetTtl → σ → σ) (hmax : 4 ≤ max)
    (htakes : ∀ k, k = .ex ∨ k = .px ∨ k = .exat ∨ k = .pxat → takes k = ttlTakes put k)
    {t : SetTtl}
    (ht : ttlPositive t) : Sets max takes (ttlOpt t) (put t) := by
  have hlen : ∀ k, k = Keyword.ex ∨ k = .px ∨ k = .exat ∨ k = .pxat → k.text.length ≤ max := by
    rintro k (rfl | rfl | rfl | rfl) <;> exact le_trans (by decide +kernel) hmax
  have hpos {α : Type} (make : UInt64 → α) {n : UInt64} (hn : n ≠ 0) :
      positive make (decimal n) = .ok (make n) := by
    simp [positive, atoiU64_decimal, hn]
  cases t with
  | seconds n => exact ⟨hlen .ex (by simp), _, htakes .ex (by simp), hpos _ ht⟩
  | millis n => exact ⟨hlen .px (by simp), _, htakes .px (by simp), hpos _ ht⟩
  | unixSecs n => exact ⟨hlen .exat (by simp), _, htakes .exat (by simp), number_decimal _ n⟩
  | unixMillis n => exact ⟨hlen .pxat (by simp), _, htakes .pxat (by simp), number_decimal _ n⟩

end options

/-- What an option of `a` sets, whatever the order. -/
def setField (a : SetArgs) (o : Opt) : SetArgs → SetArgs :=
  match o.keyword with
  | .ex | .px | .exat | .pxat => fun s => { s with ttl := a.ttl }
  | .nx | .xx | .rev => fun s => { s with condition := a.condition }
  | .get => fun s => { s with get := true }
  | .keepTtl => fun s => { s with keepTtl := true }
  | .metadata => fun s => { s with metaBytes := a.metaBytes }
  | _ => id

theorem sets_setField {a : SetArgs} (hpos : ∀ t, a.ttl = some t → ttlPositive t) {o : Opt}
    (ho : o ∈ setOpts a) :
    Sets 7 setTakes o (setField a o) := by
  refine ⟨o.keyword.ofBytes_text.2, ?_⟩
  rcases a with ⟨ttl, condition, get, keep, metaBytes⟩
  simp only [setOpts, mem_append, Option.mem_toList, Option.map_eq_some_iff] at ho
  rcases ho with ((((⟨t, rfl, rfl⟩ | hcond) | hget) | hkeep) | ⟨b, rfl, rfl⟩)
  · have hput : Sets 7 setTakes (ttlOpt t) (fun a => { a with ttl := some t }) :=
      sets_ttlOpt (fun t (a : SetArgs) => { a with ttl := some t }) (by omega)
        (by rintro k (rfl | rfl | rfl | rfl) <;> rfl) (hpos t rfl)
    cases t <;> exact hput.2
  · cases condition with
    | always => cases hcond
    | nx | xx =>
      cases mem_singleton.mp hcond
      rfl
    | rev n =>
      cases mem_singleton.mp hcond
      exact ⟨_, rfl, number_decimal _ n⟩
  · cases get with
    | false => cases hget
    | true =>
      cases mem_singleton.mp hget
      rfl
  · cases keep with
    | false => cases hkeep
    | true =>
      cases mem_singleton.mp hkeep
      rfl
  · exact ⟨_, rfl, rfl⟩

/-- The options of a `SET` may stand in any order. -/
theorem foldl_setField (a : SetArgs) {opts : List Opt} (hopts : opts.Perm (setOpts a)) :
    opts.foldl (fun s o => setField a o s) ⟨none, .always, false, false, none⟩ = a := by
  have hcomm :
      ∀ o ∈ opts, ∀ o' ∈ opts, ∀ s, setField a o' (setField a o s)
      = setField a o (setField a o' s) := by
    rintro ⟨k, v⟩ - ⟨k', v'⟩ - s
    cases k <;> cases k' <;> rfl
  rw [hopts.foldl_eq' hcomm]
  rcases a with ⟨_ | ⟨_ | _ | _ | _⟩, _ | _ | _ | _, _ | _, _ | _, _ | _⟩ <;> rfl

/-! ## Commands -/

theorem parse_write (c : Command) (opts : List Opt) :
    parse (c.write opts) = parseArgs ((c.words.2 ++ opts.flatMap Opt.words).map .bulkString)
        c.words.1 := by
  obtain ⟨hname, hlen⟩ := c.words.1.ofBytes_text
  simp [parse, Command.write, bulk, hname, hlen]

theorem manyKeys_iff (cmd : String) (make : List Bytes → Command) (ks : List Bytes) :
    manyKeys cmd make (ks.map .bulkString) = .ok (make ks) ↔ ks ≠ [] := by
  unfold manyKeys
  rw [mapM_map, mapM_bulk]
  cases ks <;> simp

theorem parseScan_words (cursor : Bytes) (pattern : Option Bytes) (count : UInt64) (explicit : Bool)
    {opts : List Opt}
    (hopts : opts.Perm ((Command.scan cursor pattern count).opts explicit)) :
    parseScan (([cursor] ++ opts.flatMap Opt.words).map .bulkString)
        = .ok (cursor, pattern, count) := by
  -- one step of the loop for each of its options
  have hmatch (p : Bytes) (rest : List Value) (x : Option Bytes) (n : UInt64) : parseScanOptions
      (.bulkString Keyword.matching.text :: .bulkString p :: rest) x n
      = parseScanOptions rest (some p) n := rfl
  have hcount (m : UInt64) (rest : List Value) (x : Option Bytes) (n : UInt64) : parseScanOptions
      (.bulkString Keyword.count.text :: .bulkString (decimal m) :: rest) x n
      = parseScanOptions rest x m := by
    show (match atoiU64 (decimal m) with
      | some n => parseScanOptions rest x n
      | none => throw (ProtoError.invalidInteger (decimal m))) = _
    rw [atoiU64_decimal]
  have hopts : opts.Perm ((pattern.map fun p => ⟨.matching, some p⟩).toList ++
      if count = 10 ∧ explicit = false then [] else [⟨.count, some (decimal count)⟩]) := hopts
  have hread : parseScanOptions ((opts.flatMap Opt.words).map .bulkString) none 10
      = .ok (pattern, count) := by
    split at hopts
    · next hten =>
      rw [hten.1]
      cases pattern with
      | none => cases hopts.eq_nil; rfl
      | some p => cases perm_singleton.mp hopts; rfl
    · cases pattern with
      | none =>
        cases perm_singleton.mp hopts
        exact hcount ..
      | some p =>
        rcases perm_pair.mp hopts with rfl | rfl
        · exact (hmatch ..).trans (hcount ..)
        · exact (hcount ..).trans (hmatch ..)
  simp [parseScan, bulk, hread]

theorem isSince_keyword : isSince Keyword.since.text = true := by decide +kernel

theorem parseWatch_iff (ks : List Bytes) (since : Option UInt64) {opts : List Opt}
    (hopts : opts.Perm ((Command.watch ks since).opts false)) :
    parseWatch ((ks ++ opts.flatMap Opt.words).map .bulkString) = .ok (.watch ks since) ↔
      (Command.watch ks since).Clean := by
  cases since with
  | some n =>
    cases perm_singleton.mp hopts
    refine iff_of_true ?_ trivial
    simp [parseWatch, Opt.words, bulk, isSince_keyword, parseU64_decimal, mapM_bulk, ← map_reverse]
  | none =>
    cases hopts.eq_nil
    rw [flatMap_nil, append_nil, ← reverse_reverse ks]
    rcases ks.reverse with _ | ⟨k, _ | ⟨b, front⟩⟩
    · simp [parseWatch, Command.Clean]
    · refine iff_of_true rfl ⟨by simp, ?_⟩
      rintro ⟨front, b, last, hks, -⟩
      simpa using congrArg List.length hks
    · have hlooks : LooksSince (k :: b :: front).reverse ↔ isSince b = true := by
        rw [isSince_iff]
        constructor
        · rintro ⟨front', b', last, hks, hb⟩
          have hrev := congrArg List.reverse hks
          simp only [reverse_reverse, reverse_append, reverse_cons, reverse_nil, nil_append,
            cons_append, List.cons.injEq] at hrev
          rw [hrev.2.1]
          exact hb
        · intro hb
          exact ⟨front.reverse, b, k, by simp, hb⟩
      have hargs : ((k :: b :: front).reverse.map Value.bulkString).reverse =
          .bulkString k :: .bulkString b :: front.map .bulkString := by simp
      unfold parseWatch
      rw [hargs]
      cases hb : isSince b with
      | false =>
        refine iff_of_true ?_ ⟨by simp, fun h => Bool.false_ne_true (hb.symm.trans (hlooks.mp h))⟩
        simp only [bulk, ok_bind, hb, mapM_map, mapM_bulk]
        rfl
      | true =>
        refine iff_of_false ?_ fun hclean => hclean.2 (hlooks.mpr hb)
        intro hread
        simp only [bulk, ok_bind, hb, if_true] at hread
        cases hn : parseU64 (.bulkString k) with
        | error e =>
          rw [hn] at hread
          cases hread
        | ok n => simp [hn, ← map_reverse, mapM_bulk] at hread

/-- What is written for a command, its options in any order, is read as that command, if it has keys
where it needs some and no key of a `WATCH` looks like its option. -/
theorem parse_words_iff (c : Command) (hpos : c.Positive) (explicit : Bool) {opts : List Opt}
    (hopts : opts.Perm (c.opts explicit)) : parse (c.write opts) = .ok c ↔ c.Clean := by
  rw [parse_write]
  cases c with
  | set key value a =>
    have hargs := options_words "SET" (setField a) opts ⟨none, .always, false, false, none⟩
      fun o ho => sets_setField hpos (hopts.mem_iff.mp ho)
    rw [foldl_setField a hopts] at hargs
    refine iff_of_true ?_ trivial
    simp [Command.words, parseArgs, parseSet, bulk, hargs]
  | setrev key value n t =>
    have hread :
      options "SETREV" 4 (ttlTakes fun t _ => some t)
      ((opts.flatMap Opt.words).map .bulkString) none =
        .ok t := by
      cases t with
      | none => cases hopts.eq_nil; rfl
      | some t =>
        cases perm_singleton.mp hopts
        refine options_words "SETREV" (fun _ _ => some t) _ none fun o ho => ?_
        cases mem_singleton.mp ho
        exact sets_ttlOpt (fun t _ => some t) le_rfl (fun _ _ => rfl) (hpos t rfl)
    refine iff_of_true ?_ trivial
    simp [Command.words, parseArgs, parseSetrev, bulk, parseU64_decimal, hread]
  | getex key t =>
    have hread :
        options "GETEX" 7 getexTakes ((opts.flatMap Opt.words).map .bulkString) none = .ok t := by
      cases t with
      | none => cases hopts.eq_nil; rfl
      | some t =>
        cases perm_singleton.mp hopts
        refine options_words "GETEX" (fun _ _ => some t) _ none fun o ho => ?_
        cases mem_singleton.mp ho
        cases t with
        | persist => exact ⟨Keyword.persist.ofBytes_text.2, rfl⟩
        | set t =>
          exact sets_ttlOpt (fun t _ => some (GetExTtl.set t)) (by omega)
            (by rintro k (rfl | rfl | rfl | rfl) <;> rfl)
            (hpos t rfl)
    refine iff_of_true ?_ trivial
    simp [Command.words, parseArgs, parseGetex, bulk, hread]
  | scan cursor pattern count =>
    refine iff_of_true ?_ trivial
    have hread := parseScan_words cursor pattern count explicit hopts
    show (parseScan _ >>= _) = _
    simp only [Command.words]
    rw [hread]
    rfl
  | watch ks since => exact parseWatch_iff ks since hopts
  | pwatch start since =>
    refine iff_of_true ?_ trivial
    cases since with
    | none => cases hopts.eq_nil; rfl
    | some n =>
      cases perm_singleton.mp hopts
      simp [Command.words, parseArgs, parsePwatch, Opt.words, bulk, isSince_keyword,
        parseU64_decimal]
  | del ks | exist ks | mget ks =>
    cases hopts.eq_nil
    rw [flatMap_nil, append_nil]
    exact manyKeys_iff _ _ ks
  | mset ps =>
    cases hopts.eq_nil
    rw [flatMap_nil, append_nil]
    show parseMset ((ps.flatMap fun p => [p.1, p.2]).map .bulkString) = _ ↔ ps ≠ []
    have hlength : (ps.flatMap fun p => [p.1, p.2]).length = 2 * ps.length := by
      simp [length_flatMap, mul_comm]
    unfold parseMset
    rw [pairs_words, length_map, hlength]
    cases ps <;> simp
  | expire key n | pexpire key n | expireAt key n | pexpireAt key n | delrev key n =>
    cases hopts.eq_nil
    exact iff_of_true (by simp [Command.words, parseArgs, twoArgs, bulk, parseU64_decimal]) trivial
  | incrBy key n | decrBy key n =>
    cases hopts.eq_nil
    exact iff_of_true
      (by simp [Command.words, parseArgs, twoArgs, bulk, parseDelta_intBytes]) trivial
  | getset key value | setnx key value =>
    cases hopts.eq_nil
    exact iff_of_true rfl trivial
  | keys x | ping x =>
    cases hopts.eq_nil
    cases x <;> exact iff_of_true rfl trivial
  | hello version =>
    cases hopts.eq_nil
    cases version with
    | none => exact iff_of_true rfl trivial
    | some v =>
      refine iff_of_true ?_ trivial
      simp [Command.words, parseArgs, maybeArg, parseVersion_natBytes]
  | select db =>
    cases hopts.eq_nil
    refine iff_of_true ?_ trivial
    simp [Command.words, parseArgs, oneArg, parseU64_decimal]
  | get | ttl | pttl | persist | getdel | incr | decr | revision | getmeta | dbsize | flushdb
      | bgrewriteaof | quit
  | reset | unwatch =>
    cases hopts.eq_nil
    exact iff_of_true rfl trivial

theorem parse_words_iff_set :
    let c :=
      Command.set (ascii "NX") (ascii "EX")
        ⟨some (.seconds 10), .xx, true, false, some (ascii "META")⟩
    parse (c.write (c.opts false)) = .ok c ↔ c.Clean :=
  parse_words_iff _ (by rintro _ ⟨⟩; exact (by decide : (10 : UInt64) ≠ 0)) false (List.Perm.refl _)

/-- Three keys are watched. The server reads one, and the second for an option. -/
theorem watched_key_read_as_option :
    let c := Command.watch [ascii "a", ascii "since", ascii "5"] none
    c.opts false = [] ∧ parse (c.write []) = .ok (.watch [ascii "a"] (some 5)) := ⟨rfl, rfl⟩

/-! ## The digit loop

The numbers above are read as a whole; `atoi_u64` and `atoi_i64` read them digit by digit, with a
check in each step. -/

namespace Atoi

def checkedMul (a b : UInt64) : Option UInt64 :=
  if a.toNat * b.toNat < 2 ^ 64 then some (a * b) else none

def checkedAdd (a b : UInt64) : Option UInt64 :=
  if a.toNat + b.toNat < 2 ^ 64 then some (a + b) else none

/-- The loop of both functions. The subtraction wraps. -/
def loop (n : UInt64) : Bytes → Option UInt64
  | [] => some n
  | byte :: b => do
    let d := byte - 48
    if d > 9 then none
    else
      let tens ← checkedMul n 10
      let n ← checkedAdd tens d.toUInt64
      loop n b

def atoiU64 (b : Bytes) : Option UInt64 := if b.isEmpty then none else loop 0 b

/-- The sign is put to the number after the loop. The negation wraps. -/
def withSign (neg : Bool) (n : UInt64) : Option Int64 :=
  if neg then
    if n.toNat > 2 ^ 63 then none else some (-n).toInt64
  else if n.toNat < 2 ^ 63 then some n.toInt64 else none

def signed (neg : Bool) (digits : Bytes) : Option Int64 :=
  if digits.isEmpty then none else loop 0 digits >>= withSign neg

def atoiI64 : Bytes → Option Int64
  | [] => none
  | 45 :: digits => signed true digits
  | 43 :: digits => signed false digits
  | digits => signed false digits

/-- What digits denote behind a number. -/
def denoted (n : Nat) (b : Bytes) :
    Nat := n * 10 ^ b.length + Nat.ofDigits 10 (b.reverse.map fun x => x.toNat - 48)

theorem denoted_cons (n : Nat) (x : UInt8) (b : Bytes) :
    denoted n (x :: b) = denoted (n * 10 + (x.toNat - 48)) b := by
  simp only [denoted, reverse_cons, map_append, map_cons, map_nil, Nat.ofDigits_append,
    Nat.ofDigits_singleton,
    length_map, length_reverse, length_cons]
  ring

theorem le_denoted (n : Nat) (b : Bytes) : n ≤ denoted n b :=
  (Nat.le_mul_of_pos_right n (Nat.pow_pos (by decide))).trans (Nat.le_add_right _ _)

theorem isDigit_iff (x : UInt8) : isDigit x = true ↔ ¬ x - 48 > 9 := by
  revert x
  decide +kernel

theorem toNat_digit {x : UInt8} (h : isDigit x = true) :
    (x - 48).toUInt64.toNat = x.toNat - 48 := by
  revert x
  decide +kernel

/-- The two checks of a step are one. -/
theorem checked_step (n d : UInt64) (f : UInt64 → Option UInt64) :
    (do let tens ← checkedMul n 10; let n ← checkedAdd tens d; f n)
      = if n.toNat * 10 + d.toNat < 2 ^ 64 then f (UInt64.ofNat (n.toNat * 10 + d.toNat))
      else none := by
  have hten : (10 : UInt64).toNat = 10 := rfl
  rw [checkedMul, hten]
  by_cases hmul : n.toNat * 10 < 2 ^ 64
  · have htens : (n * 10).toNat = n.toNat * 10 :=
      by rw [UInt64.toNat_mul, hten, Nat.mod_eq_of_lt hmul]
    rw [if_pos hmul]
    show (checkedAdd (n * 10) d).bind f = _
    rw [checkedAdd, htens]
    split
    · simp
    · rfl
  · rw [if_neg hmul, if_neg (by omega)]
    rfl

/-- The loop fails at the first byte that is not a digit and in the first step that overflows;
later steps only make the number larger. -/
theorem loop_eq_some (b : Bytes) (n m : UInt64) :
    loop n b = some m ↔ (∀ x ∈ b, isDigit x = true) ∧ denoted n.toNat b = m.toNat := by
  induction b generalizing n with
  | nil => simp [loop, denoted, UInt64.toNat_inj]
  | cons x b ih =>
    rw [loop, forall_mem_cons, denoted_cons]
    by_cases hx : isDigit x = true
    · rw [if_neg ((isDigit_iff x).mp hx), checked_step, toNat_digit hx]
      split
      · rename_i hfits
        rw [ih, UInt64.toNat_ofNat_of_lt' hfits, and_iff_right hx]
      · rename_i hover
        have hle := le_denoted (n.toNat * 10 + (x.toNat - 48)) b
        have hlt := m.toNat_lt
        exact iff_of_false nofun fun h => by omega
    · rw [if_pos (not_not.mp fun h => hx ((isDigit_iff x).mpr h))]
      exact iff_of_false nofun fun h => hx h.1.1

/-- A non-empty string of digits that denotes `n`. -/
def Denotes (b : Bytes) (n : Nat) : Prop := b ≠ [] ∧ (∀ x ∈ b, isDigit x = true) ∧ denoted 0 b = n

/-- With a sign in front of it, or none. -/
def DenotesInt (b : Bytes) (n : Int) : Prop :=
  (∃ m : Nat, Denotes b m ∧ n = m)
    ∨ (∃ digits, ∃ m : Nat, b = 43 :: digits ∧ Denotes digits m ∧ n = m)
    ∨ ∃ digits, ∃ m : Nat, b = 45 :: digits ∧ Denotes digits m ∧ n = -m

theorem loop_iff (b : Bytes) (n : UInt64) : b ≠ [] ∧ loop 0 b = some n ↔ Denotes b n.toNat := by
  rw [loop_eq_some]
  rfl

theorem atoiU64_iff (b : Bytes) (n : UInt64) : atoiU64 b = some n ↔ Denotes b n.toNat := by
  rw [← loop_iff]
  cases b <;> simp [atoiU64]

theorem toInt_toInt64 {n : UInt64} (h : n.toNat < 2 ^ 63) : n.toInt64.toInt = n.toNat :=
  BitVec.toInt_eq_toNat_of_lt (x := n.toBitVec) (by rw [UInt64.toNat_toBitVec]; omega)

theorem toInt_neg {n : UInt64} (h : n.toNat ≤ 2 ^ 63) : (-n).toInt64.toInt = -n.toNat := by
  have hneg : (-n).toInt64.toInt = (-n.toBitVec).toInt := rfl
  rw [hneg, BitVec.toInt_neg, BitVec.toInt_eq_toNat_bmod, UInt64.toNat_toBitVec]
  simp only [Int.bmod_def]
  omega

theorem withSign_iff (neg : Bool) (m : UInt64) (n : Int64) :
    withSign neg m = some n ↔ n.toInt = if neg then -(m.toNat : Int) else m.toNat := by
  have hle : -2 ^ 63 ≤ n.toInt := n.le_toInt
  have hlt : n.toInt < 2 ^ 63 := n.toInt_lt
  rw [withSign]
  split
  · split
    · exact iff_of_false nofun (by omega)
    · rw [Option.some_inj, ← Int64.toInt_inj, toInt_neg (by omega), eq_comm]
  · split
    · rename_i h
      rw [Option.some_inj, ← Int64.toInt_inj, toInt_toInt64 h, eq_comm]
    · exact iff_of_false nofun (by omega)

/-- Behind a sign any number may come that, with the sign, is in range. -/
theorem signed_iff (neg : Bool) (digits : Bytes) (n : Int64) :
    signed neg digits = some n ↔ ∃ m :
        Nat, Denotes digits m ∧ n.toInt = if neg then -(m : Int) else m := by
  have hle : -2 ^ 63 ≤ n.toInt := n.le_toInt
  have hlt : n.toInt < 2 ^ 63 := n.toInt_lt
  have hsigned : signed neg digits = some n ↔ ∃ m, (digits ≠ [] ∧ loop 0 digits = some m)
      ∧ withSign neg m = some n := by
    rw [signed]
    cases digits with
    | nil => simp
    | cons x digits => simp [Option.bind_eq_some_iff]
  simp only [hsigned, loop_iff, withSign_iff]
  refine ⟨fun ⟨m, h⟩ => ⟨m.toNat, h⟩, fun ⟨m, hm, hn⟩ => ?_⟩
  have hsmall : m < 2 ^ 64 := by split at hn <;> omega
  exact ⟨UInt64.ofNat m, by rw [UInt64.toNat_ofNat_of_lt' hsmall]; exact ⟨hm, hn⟩⟩

/-- A sign is no digit. -/
theorem Denotes.digit {b : Bytes} {n : Nat} {x : UInt8} (h : Denotes (x :: b) n) :
    isDigit x = true :=
  h.2.1 x mem_cons_self

theorem atoiI64_iff (b : Bytes) (n : Int64) : atoiI64 b = some n ↔ DenotesInt b n.toInt := by
  have hsign {x : UInt8} {rest : Bytes} (hx : isDigit x = false) (m : Nat) :
    ¬ Denotes (x :: rest) m :=
    fun h => absurd h.digit (by simp [hx])
  unfold atoiI64
  split
  · simp [DenotesInt, Denotes]
  · simp [DenotesInt, signed_iff, hsign (show isDigit 45 = false from rfl)]
  · simp [DenotesInt, signed_iff, hsign (show isDigit 43 = false from rfl)]
  · rename_i hminus hplus
    rw [signed_iff]
    refine ⟨.inl, fun h => ?_⟩
    obtain h | ⟨digits, m, hb, -⟩ | ⟨digits, m, hb, -⟩ := h
    · exact h
    · exact absurd hb (hplus digits)
    · exact absurd hb (hminus digits)

/-- A number is read exactly if it is written in digits, behind a sign if it has one, and is in
range. -/
theorem atoi_exact (b : Bytes) :
    (∀ n : Nat, (atoiU64 b).map UInt64.toNat = some n ↔ Denotes b n ∧ n < 2 ^ 64)
      ∧ ∀ n : Int, (atoiI64 b).map Int64.toInt = some n ↔ DenotesInt b n ∧ -2 ^ 63 ≤ n
      ∧ n < 2 ^ 63 := by
  constructor
  · intro n
    simp only [Option.map_eq_some_iff, atoiU64_iff]
    constructor
    · rintro ⟨m, hm, rfl⟩
      exact ⟨hm, m.toNat_lt⟩
    · rintro ⟨hn, hlt⟩
      exact ⟨UInt64.ofNat n, by rwa [UInt64.toNat_ofNat_of_lt' hlt], UInt64.toNat_ofNat_of_lt' hlt⟩
  · intro n
    simp only [Option.map_eq_some_iff, atoiI64_iff]
    constructor
    · rintro ⟨m, hm, rfl⟩
      exact ⟨hm, m.le_toInt, m.toInt_lt⟩
    · rintro ⟨hn, hle, hlt⟩
      have hval := Int64.toInt_ofInt_of_le hle hlt
      exact ⟨Int64.ofInt n, by rwa [hval], hval⟩

theorem parseDigits_iff (b : Bytes) (n : Nat) : parseDigits b = some n ↔ Denotes b n := by
  simp [parseDigits, Denotes, denoted, and_assoc]

/-- The numbers of `parseU64` are those of the loop. -/
theorem atoiU64_eq (b : Bytes) : atoiU64 b = Server.atoiU64 b := by
  refine Option.ext fun n => ?_
  rw [atoiU64_iff, Server.atoiU64, ← parseDigits_iff, Option.bind_eq_bind, Option.bind_eq_some_iff]
  constructor
  · intro h
    exact ⟨_, h, by simp [n.toNat_lt]⟩
  · rintro ⟨m, hm, hn⟩
    simp only [Option.ite_none_right_eq_some, Option.some.injEq] at hn
    rw [hm, ← hn.2, UInt64.toNat_ofNat_of_lt' hn.1]

/-- `str::parse` reads the same integers. -/
theorem parseI64_iff (b : Bytes) (n : Int) : parseI64 b = some n ↔ DenotesInt b n
    ∧ inI64 n = true := by
  have hsign {x : UInt8} {rest : Bytes} (hx : isDigit x = false) (m : Nat) :
    ¬ Denotes (x :: rest) m :=
    fun h => absurd h.digit (by simp [hx])
  have hread (digits : Bytes) (f : Int → Int) :
      (((parseDigits digits).bind fun m => some (m : Int)).map f).bind
      (fun k => if inI64 k then some k else none)
        = some n ↔ (∃ m : Nat, Denotes digits m ∧ n = f m) ∧ inI64 n = true := by
    simp only [← parseDigits_iff]
    cases parseDigits digits with
    | none => simp
    | some m =>
      rw [Option.bind_some, Option.map_some, Option.bind_some, Option.ite_none_right_eq_some,
        Option.some.injEq]
      simp only [Option.some.injEq, exists_eq_left']
      exact ⟨fun h => ⟨h.2.symm, h.2 ▸ h.1⟩, fun h => ⟨h.1 ▸ h.2, h.1.symm⟩⟩
  unfold parseI64
  split
  · refine (hread _ fun m => -m).trans (and_congr_left' ?_)
    simp [DenotesInt, hsign (show isDigit 45 = false from rfl)]
  · refine (hread _ fun m => m).trans (and_congr_left' ?_)
    simp [DenotesInt, hsign (show isDigit 43 = false from rfl)]
  · rename_i hminus hplus
    refine (hread b fun m => m).trans (and_congr_left' ⟨Or.inl, fun h => ?_⟩)
    obtain h | ⟨digits, m, hb, -⟩ | ⟨digits, m, hb, -⟩ := h
    · exact h
    · exact absurd hb (hplus digits)
    · exact absurd hb (hminus digits)

/-- The numbers of `parseDelta` are those of the loop. -/
theorem atoiI64_eq (b : Bytes) : atoiI64 b = (parseI64 b).map Int64.ofInt := by
  refine Option.ext fun n => ?_
  rw [atoiI64_iff, Option.map_eq_some_iff]
  simp only [parseI64_iff]
  constructor
  · intro h
    exact ⟨n.toInt, ⟨h, by simpa [inI64] using ⟨n.le_toInt, n.toInt_lt⟩⟩, Int64.ofInt_toInt n⟩
  · rintro ⟨m, ⟨hm, hin⟩, rfl⟩
    simp only [inI64, Bool.and_eq_true, decide_eq_true_eq] at hin
    rwa [Int64.toInt_ofInt_of_le hin.1 hin.2]

end Atoi

end BeyondKv.Server.Resp
