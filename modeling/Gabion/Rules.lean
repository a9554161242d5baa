/-
  Rate-limit rules (`rules.rs`).

  Rules, the byte strings their fingerprints and keys are hashed from, and the resolution of
  rates.  The hash (XXH3-128) and the parser of durations such as `2h30m` (humantime) are
  parameters.
-/
import Gabion.Lib.Bytes
import Gabion.Types

namespace Gabion

/-- What the rules take from other crates. -/
structure RuleCrates where
  /-- XXH3-128 with the secret of `stable_hasher`, over everything written -/
  hash : List UInt8 → BitVec 128
  /-- `humantime::parse_duration` -/
  parseDuration : String → Option ℕ

/-- The bytes of a `str`. -/
def utf8 (text : String) : List UInt8 := text.toList.flatMap String.utf8EncodeChar

inductive EnforcementMode
  | enforce
  | dryRun
  | disabled
deriving DecidableEq, Repr

structure Descriptor where
  key : String
  value : String
deriving DecidableEq, Repr

/-- A pattern for one descriptor; the value `*` matches any value. -/
structure DescriptorPattern where
  key : String
  value : String
deriving DecidableEq, Repr

def DescriptorPattern.matches (p : DescriptorPattern) (d : Descriptor) : Bool :=
  p.key = d.key && (p.value = "*" || p.value = d.value)

/-! ## Hashing -/

def domainInput (domain : String) : List UInt8 := utf8 "gabion.domain.v1" ++ [0] ++ utf8 domain

def hashDomain (x : RuleCrates) (domain : String) : KeyHash := x.hash (domainInput domain)

def writeDescriptors (descriptors : List (String × String)) : List UInt8 :=
  descriptors.flatMap fun (key, value) => utf8 key ++ [0] ++ utf8 value ++ [0xff]

/-- `rule_id` is written as eight little-endian bytes. -/
def keyInput (ruleId : ℕ) (domain : String) (descriptors : List Descriptor) : List UInt8 :=
  utf8 "gabion.key.v1" ++ [0] ++ Bytes.toLE 8 ruleId ++ utf8 domain ++ [0] ++
    writeDescriptors (descriptors.map fun d => (d.key, d.value))

def hashKey (x : RuleCrates) (ruleId : ℕ) (domain : String) (descriptors : List Descriptor) :
    KeyHash :=
  x.hash (keyInput ruleId domain descriptors)

def fingerprintInput (domain : String) (descriptors : List DescriptorPattern) : List UInt8 :=
  utf8 "gabion.rule.v1" ++ [0] ++ utf8 domain ++ [0] ++
    writeDescriptors (descriptors.map fun p => (p.key, p.value))

def ruleFingerprint (x : RuleCrates) (domain : String) (descriptors : List DescriptorPattern) :
    Fingerprint :=
  x.hash (fingerprintInput domain descriptors)

/-! ## Rules -/

/-- `window_millis.div_ceil(bucket_millis).max(1) as u32`. -/
def liveBucketsFor (windowMillis bucketMillis : ℕ) : ℕ :=
  max ((windowMillis + bucketMillis - 1) / bucketMillis) 1 % 2 ^ 32

/-- A rule as `Rule::new` builds it. -/
structure Rule where
  id : ℕ
  fingerprint : Fingerprint
  domain : String
  domainHash : KeyHash
  descriptors : List DescriptorPattern
  limit : ℕ
  windowMillis : ℕ
  bucketMillis : ℕ
  liveBuckets : ℕ
  mode : EnforcementMode
  bucket_pos : 0 < bucketMillis
  live_eq : liveBuckets = liveBucketsFor windowMillis bucketMillis
deriving DecidableEq

def Rule.new (x : RuleCrates) (id : ℕ) (domain : String) (descriptors : List DescriptorPattern)
    (limit windowMillis bucketMillis : ℕ) (mode : EnforcementMode) : Rule where
  id := id
  fingerprint := ruleFingerprint x domain descriptors
  domain := domain
  domainHash := hashDomain x domain
  descriptors := descriptors
  limit := limit
  windowMillis := max windowMillis 1
  bucketMillis := max bucketMillis 1
  liveBuckets := liveBucketsFor (max windowMillis 1) (max bucketMillis 1)
  mode := mode
  bucket_pos := lt_max_of_lt_right Nat.one_pos
  live_eq := rfl

/-- What a request keeps of a rule. -/
structure RuleSpec where
  id : ℕ
  fingerprint : Fingerprint
  limit : ℕ
  bucketMillis : ℕ
  windowMillis : ℕ
  liveBuckets : ℕ
deriving DecidableEq, Repr

def Rule.spec (rule : Rule) : RuleSpec where
  id := rule.id
  fingerprint := rule.fingerprint
  limit := rule.limit
  bucketMillis := rule.bucketMillis
  windowMillis := rule.windowMillis
  liveBuckets := rule.liveBuckets

abbrev RuleTable := List Rule

/-- The filter of `matching`: domain and patterns fit, and the rule is not disabled. -/
def Rule.fits (x : RuleCrates) (domain : String) (descriptors : List Descriptor) (rule : Rule) :
    Bool :=
  rule.mode ≠ .disabled && rule.domainHash = hashDomain x domain &&
    rule.descriptors.length = descriptors.length &&
    (rule.descriptors.zip descriptors).all fun (pattern, descriptor) => pattern.matches descriptor

def RuleTable.matching (x : RuleCrates) (table : RuleTable) (domain : String)
    (descriptors : List Descriptor) : List Rule :=
  table.filter (Rule.fits x domain descriptors)

/-! ## Rates -/

/-- A `Duration` in nanoseconds. -/
abbrev Duration := ℕ

def Duration.fromSecs (secs : ℕ) : Duration := secs * 10 ^ 9

def durationToMillis (d : Duration) : ℕ := min (d / 10 ^ 6) u64Max

/-- `char::is_whitespace`: the characters with the property White_Space. -/
def isWhitespace (c : Char) : Bool :=
  let n := c.toNat
  (9 ≤ n && n ≤ 13) || (0x2000 ≤ n && n ≤ 0x200a) ||
    [0x20, 0x85, 0xa0, 0x1680, 0x2028, 0x2029, 0x202f, 0x205f, 0x3000].contains n

def trim (text : List Char) : List Char :=
  ((text.dropWhile isWhitespace).reverse.dropWhile isWhitespace).reverse

/-- `split_once("r/")`. -/
def splitRate : List Char → Option (List Char × List Char)
  | 'r' :: '/' :: rest => some ([], rest)
  | c :: rest => (splitRate rest).map fun (number, period) => (c :: number, period)
  | [] => none

/-- `str::parse::<u64>`: one leading `+` is allowed. -/
def parseU64 (text : List Char) : Option ℕ :=
  let digits := match text with
    | '+' :: rest => rest
    | _ => text
  if digits = [] then none
  else digits.foldlM (fun n c =>
    if c.isDigit && n * 10 + (c.toNat - '0'.toNat) ≤ u64Max then
      some (n * 10 + (c.toNat - '0'.toNat))
    else none) 0

def parseRate (x : RuleCrates) (input : String) : Except String (ℕ × Duration) := do
  let some (number, period) := splitRate (trim input.toList)
    | throw ("expected `rate=Nr/<unit>` where unit is `s|m|h|d` or a duration (e.g. `rate=100r/s`, " ++
        "`rate=10r/5m`)")
  let some count := parseU64 number
    | throw "rate count must be a non-negative integer (e.g. `rate=100r/s`)"
  if count = 0 then throw "`rate=` must be a positive integer; zero would deny all traffic"
  let duration ← match String.ofList period with
    | "s" => pure (Duration.fromSecs 1)
    | "m" => pure (Duration.fromSecs 60)
    | "h" => pure (Duration.fromSecs (60 * 60))
    | "d" => pure (Duration.fromSecs (60 * 60 * 24))
    | other =>
      match x.parseDuration other with
      | some d => pure d
      | none => throw "rate period must be `s`, `m`, `h`, `d`, or a duration like `30s`, `5m`"
  if duration = 0 then throw "rate period must be greater than zero"
  return (count, duration)

structure ResolvedRate where
  limit : ℕ
  windowMillis : ℕ
  bucketMillis : ℕ
deriving DecidableEq, Repr

inductive RateResolveError
  | windowShorterThanPeriod
  | zeroWindow
  | zeroBucket
  | limitOverflow
deriving DecidableEq, Repr

def resolveRate (rateCount : ℕ) (period : Duration) (window bucket : Option Duration) :
    Except RateResolveError ResolvedRate :=
  let window := window.getD period
  if window = 0 then .error .zeroWindow
  else if window < period then .error .windowShorterThanPeriod
  else
    let bucket := bucket.getD window
    if bucket = 0 then .error .zeroBucket
    else
      let windowMillis := durationToMillis window
      let periodMillis := max (durationToMillis period) 1
      let bucketMillis := durationToMillis bucket
      if rateCount * windowMillis > u64Max then .error .limitOverflow
      else .ok { limit := rateCount * windowMillis / periodMillis, windowMillis, bucketMillis }

end Gabion
