/-
  What is hashed for a rule and for a key (`rule_fingerprint` and `hash_key` in `rules.rs`).

  UTF-8 never uses the byte `0xff`, so what stands between two of these bytes can be read back.
  NUL is a character like any other; only the keys of a configured rule are free of it.  Two
  rules can therefore share their fingerprint input when a NUL in a domain moves the border
  between domain and first descriptor (`Shifted`, `fingerprintInput_eq_iff`).  The input of a key
  starts with the rule id, which fixes the domain and the keys: it stands for the rule and the
  values as long as ids are not reused.
-/
import Gabion.Lib.Delimited
import Gabion.ServerConfig

namespace Gabion

/-! ## UTF-8 -/

theorem utf8_append (a b : String) : utf8 (a ++ b) = utf8 a ++ utf8 b := by
  rw [utf8, String.toList_append, List.flatMap_append]
  rfl

theorem utf8_injective : Function.Injective utf8 := by
  intro a b h
  have hbytes : (String.ofList a.toList).toByteArray = (String.ofList b.toList).toByteArray :=
    congrArg List.toByteArray h
  rwa [String.toByteArray_inj, String.ofList_toList, String.ofList_toList] at hbytes

theorem utf8EncodeChar_lt {c : Char} {b : UInt8} (h : b ∈ String.utf8EncodeChar c) :
    b.toNat < 248 := by
  unfold String.utf8EncodeChar at h
  dsimp only at h
  split_ifs at h with h1 h2 h3 <;>
    simp only [List.mem_cons, List.not_mem_nil, or_false] at h
  · subst h
    rw [UInt8.toNat_ofNat']
    omega
  · rcases h with rfl | rfl <;> rw [UInt8.toNat_ofNat'] <;> omega
  · rcases h with rfl | rfl | rfl <;> rw [UInt8.toNat_ofNat'] <;> omega
  · rcases h with rfl | rfl | rfl | rfl <;> rw [UInt8.toNat_ofNat'] <;> omega

/-- The byte `0xff` does not occur in UTF-8. -/
theorem notMem_utf8 (text : String) : 0xff ∉ utf8 text := by
  intro h
  obtain ⟨c, -, hb⟩ := List.mem_flatMap.1 h
  exact absurd (utf8EncodeChar_lt hb) (by decide)

def nul : String := "\x00"

theorem utf8_nul : utf8 nul = [0] := by decide +kernel

/-- The bytes of a descriptor, up to the terminator. -/
def descriptorText (key value : String) : String := key ++ nul ++ value

/-- The texts that `rule_fingerprint` and `hash_key` write, each followed by `0xff`. -/
def joinTexts (texts : List String) : List UInt8 := Delimited.join 0xff (texts.map utf8)

/-- **Terminated texts can be told apart.** -/
theorem joinTexts_injective : Function.Injective joinTexts := by
  intro a b h
  have hfree : ∀ texts : List String, ∀ w ∈ texts.map utf8, 0xff ∉ w := by
    intro texts w hw
    obtain ⟨text, -, rfl⟩ := List.mem_map.1 hw
    exact notMem_utf8 text
  exact List.map_injective_iff.2 utf8_injective ((Delimited.join_inj (hfree a) (hfree b)).1 h)

theorem writeDescriptors_eq (descriptors : List (String × String)) :
    writeDescriptors descriptors = joinTexts (descriptors.map fun d => descriptorText d.1 d.2) := by
  induction descriptors with
  | nil => rfl
  | cons d ds ih =>
    have hcons : writeDescriptors (d :: ds) =
        utf8 d.1 ++ [0] ++ utf8 d.2 ++ [0xff] ++ writeDescriptors ds := rfl
    rw [hcons, ih, joinTexts, joinTexts, List.map_cons, List.map_cons, Delimited.join_cons,
      descriptorText, utf8_append, utf8_append, utf8_nul]
    simp only [List.append_assoc, List.cons_append, List.nil_append]

/-! ## Splits at NUL -/

theorem toList_nul : nul.toList = ['\x00'] := by decide +kernel

theorem toList_append_nul (a r : String) : (a ++ nul ++ r).toList = a.toList ++ '\x00' :: r.toList := by
  rw [String.toList_append, String.toList_append, toList_nul, List.append_assoc,
    List.singleton_append]

/-- Two ways to split a text at a NUL. -/
theorem append_nul_eq_append_nul {a b r s : String} : a ++ nul ++ r = b ++ nul ++ s ↔
    (a = b ∧ r = s) ∨ (∃ m, b = a ++ nul ++ m ∧ r = m ++ nul ++ s) ∨
      ∃ m, a = b ++ nul ++ m ∧ s = m ++ nul ++ r := by
  have htext : ∀ a b m : String, b = a ++ nul ++ m ↔ b.toList = a.toList ++ '\x00' :: m.toList :=
    fun a b m => by rw [← String.toList_inj, toList_append_nul]
  have hsplit : ∀ a b r s : String, (∃ m, b = a ++ nul ++ m ∧ r = m ++ nul ++ s) ↔
      ∃ m, b.toList = a.toList ++ '\x00' :: m ∧ r.toList = m ++ '\x00' :: s.toList := by
    intro a b r s
    simp only [htext]
    constructor
    · rintro ⟨m, hb, hr⟩
      exact ⟨m.toList, hb, hr⟩
    · rintro ⟨m, hb, hr⟩
      exact ⟨String.ofList m, by rw [String.toList_ofList]; exact ⟨hb, hr⟩⟩
  rw [hsplit, hsplit, htext, toList_append_nul, Delimited.append_cons_eq_append_cons,
    String.toList_inj, String.toList_inj]

/-- A key without NUL ends at the first one. -/
theorem descriptorText_inj {k k' v v' : String} (hk : '\x00' ∉ k.toList) (hk' : '\x00' ∉ k'.toList) :
    descriptorText k v = descriptorText k' v' ↔ k = k' ∧ v = v' := by
  rw [← String.toList_inj, descriptorText, descriptorText, toList_append_nul, toList_append_nul,
    Delimited.append_cons_inj hk hk', String.toList_inj, String.toList_inj]

/-! ## Rules of the configuration -/

theorem nul_notMem_key {key : String} (h : isDescriptorKey key = true) : '\x00' ∉ key.toList := by
  intro hmem
  unfold isDescriptorKey at h
  split at h
  · cases h
  · rename_i c chars hkey
    rw [hkey] at hmem
    rw [Bool.and_eq_true, List.all_eq_true] at h
    rcases List.mem_cons.1 hmem with rfl | hmem
    · exact absurd h.1 (by decide)
    · exact absurd (h.2 _ hmem) (by decide)

variable {x x' : RuleCrates} {limit limit' : LimitRuleConfig} {id id' : ℕ} {rule rule' : Rule}

/-- A rule of the configuration has descriptors, and their keys are free of NUL. -/
theorem toRule_descriptors (h : limit.toRule x id = .ok rule) :
    rule.descriptors ≠ [] ∧ ∀ p ∈ rule.descriptors, '\x00' ∉ p.key.toList := by
  obtain ⟨count, window, bucket, hrule⟩ := toRule_ok h
  have hdescriptors : rule.descriptors = limit.descriptors.map fun d => ⟨d.key, d.value⟩ := by
    rw [hrule]
    rfl
  unfold LimitRuleConfig.toRule at h
  split_ifs at h with hempty
  split at h
  · cases h
  · rename_i hkeys
    rw [hdescriptors]
    refine ⟨fun hnil => hempty (List.map_eq_nil_iff.1 hnil), fun p hp => ?_⟩
    obtain ⟨d, hd, rfl⟩ := List.mem_map.1 hp
    have hkey := List.find?_eq_none.1 hkeys d hd
    rw [Bool.not_eq_true', Bool.not_eq_false] at hkey
    exact nul_notMem_key hkey

/-- What the configuration accepts. -/
theorem toRule_of {count : ℕ} {period : Duration} {resolved : ResolvedRate}
    (hne : limit.descriptors ≠ []) (hkeys : ∀ d ∈ limit.descriptors, isDescriptorKey d.key = true)
    (hparse : parseRate x limit.rate = .ok (count, period))
    (hresolve : resolveRate count period limit.window limit.bucket = .ok resolved) (id : ℕ) :
    limit.toRule x id = .ok (Rule.new x id limit.domain
      (limit.descriptors.map fun d => ⟨d.key, d.value⟩) resolved.limit resolved.windowMillis
      resolved.bucketMillis limit.mode) := by
  have hfind : limit.descriptors.find? (fun d => !isDescriptorKey d.key) = none := by
    rw [List.find?_eq_none]
    intro d hd
    simp [hkeys d hd]
  rw [LimitRuleConfig.toRule, if_neg hne, hfind]
  dsimp only
  rw [hparse]
  dsimp only
  rw [hresolve]

/-! ## Fingerprints -/

/-- The texts of some patterns, key and value. -/
def patternTexts (ps : List DescriptorPattern) : List String :=
  ps.map fun p => descriptorText p.key p.value

theorem patternTexts_inj {ps qs : List DescriptorPattern} (hp : ∀ p ∈ ps, '\x00' ∉ p.key.toList)
    (hq : ∀ q ∈ qs, '\x00' ∉ q.key.toList) : patternTexts ps = patternTexts qs ↔ ps = qs := by
  refine ⟨fun h => ?_, congrArg patternTexts⟩
  induction ps generalizing qs with
  | nil => exact (List.map_eq_nil_iff.1 h.symm).symm
  | cons p ps ih =>
    cases qs with
    | nil => cases h
    | cons q qs =>
      obtain ⟨hhead, htail⟩ := List.cons.inj h
      obtain ⟨hkey, hvalue⟩ := (descriptorText_inj (hp p List.mem_cons_self)
        (hq q List.mem_cons_self)).1 hhead
      rw [ih (fun p' h' => hp p' (List.mem_cons_of_mem _ h'))
        (fun q' h' => hq q' (List.mem_cons_of_mem _ h')) htail]
      cases p
      cases q
      simp only at hkey hvalue
      rw [hkey, hvalue]

/-- The domain stands in one text with the first pattern. -/
theorem fingerprintInput_cons (domain : String) (p : DescriptorPattern) (ps : List DescriptorPattern) :
    fingerprintInput domain (p :: ps) = utf8 "gabion.rule.v1" ++ [0] ++
      joinTexts ((domain ++ nul ++ descriptorText p.key p.value) :: patternTexts ps) := by
  rw [fingerprintInput, writeDescriptors_eq, List.map_map]
  have hfirst : joinTexts ((domain ++ nul ++ descriptorText p.key p.value) :: patternTexts ps) =
      utf8 domain ++ [0] ++ joinTexts (descriptorText p.key p.value :: patternTexts ps) := by
    simp only [joinTexts, List.map_cons, Delimited.join_cons, utf8_append, utf8_nul, List.append_assoc]
  rw [hfirst]
  simp only [List.append_assoc]
  rfl

theorem fingerprintInput_cons_inj {d d' : String} {p p' : DescriptorPattern}
    {ps ps' : List DescriptorPattern} :
    fingerprintInput d (p :: ps) = fingerprintInput d' (p' :: ps') ↔
      d ++ nul ++ descriptorText p.key p.value = d' ++ nul ++ descriptorText p'.key p'.value ∧
        patternTexts ps = patternTexts ps' := by
  rw [fingerprintInput_cons, fingerprintInput_cons, List.append_cancel_left_eq,
    joinTexts_injective.eq_iff, List.cons.injEq]

/-- The border between the domain and the first pattern lies elsewhere: the domain of `rule'` is
    that of `rule`, a NUL and some text with which the first pattern of `rule` starts. -/
def Shifted (rule rule' : Rule) : Prop :=
  ∃ p p' rest m, rule.descriptors = p :: rest ∧ rule'.descriptors = p' :: rest ∧
    rule'.domain = rule.domain ++ nul ++ m ∧
    descriptorText p.key p.value = m ++ nul ++ descriptorText p'.key p'.value

/-- **When two rules are hashed from the same bytes.** -/
theorem fingerprintInput_eq_iff (h : limit.toRule x id = .ok rule)
    (h' : limit'.toRule x' id' = .ok rule') :
    fingerprintInput rule.domain rule.descriptors = fingerprintInput rule'.domain rule'.descriptors ↔
      (rule.domain = rule'.domain ∧ rule.descriptors = rule'.descriptors) ∨
        Shifted rule rule' ∨ Shifted rule' rule := by
  obtain ⟨hne, hkeys⟩ := toRule_descriptors h
  obtain ⟨hne', hkeys'⟩ := toRule_descriptors h'
  obtain ⟨p, ps, hps⟩ := List.exists_cons_of_ne_nil hne
  obtain ⟨p', ps', hps'⟩ := List.exists_cons_of_ne_nil hne'
  unfold Shifted
  rw [hps] at hkeys ⊢
  rw [hps'] at hkeys' ⊢
  have hrest := patternTexts_inj (fun q hq => hkeys q (List.mem_cons_of_mem _ hq))
    (fun q hq => hkeys' q (List.mem_cons_of_mem _ hq))
  have hfirst : descriptorText p.key p.value = descriptorText p'.key p'.value ↔ p = p' := by
    rw [descriptorText_inj (hkeys p List.mem_cons_self) (hkeys' p' List.mem_cons_self)]
    cases p
    cases p'
    simp
  rw [fingerprintInput_cons_inj, hrest, append_nul_eq_append_nul, hfirst]
  constructor
  · rintro ⟨⟨hdomain, rfl⟩ | ⟨m, hdomain, htext⟩ | ⟨m, hdomain, htext⟩, rfl⟩
    · exact .inl ⟨hdomain, rfl⟩
    · exact .inr (.inl ⟨p, p', ps, m, rfl, rfl, hdomain, htext⟩)
    · exact .inr (.inr ⟨p', p, ps, m, rfl, rfl, hdomain, htext⟩)
  · rintro (⟨hdomain, hsame⟩ | ⟨q, q', rest, m, hq, hq', hdomain, htext⟩ |
      ⟨q', q, rest, m, hq', hq, hdomain, htext⟩)
    · cases hsame
      exact ⟨.inl ⟨hdomain, rfl⟩, rfl⟩
    · cases hq
      cases hq'
      exact ⟨.inr (.inl ⟨m, hdomain, htext⟩), rfl⟩
    · cases hq
      cases hq'
      exact ⟨.inr (.inr ⟨m, hdomain, htext⟩), rfl⟩

theorem Shifted.domain_ne (h : Shifted rule rule') : rule.domain ≠ rule'.domain := by
  obtain ⟨-, -, -, m, -, -, hdomain, -⟩ := h
  intro hsame
  have hlen := congrArg (fun d => d.toList.length) (hsame.trans hdomain)
  simp only [toList_append_nul, List.length_append, List.length_cons] at hlen
  omega

/-- A moved border needs a NUL in the longer domain and one in the other rule's first value. -/
theorem Shifted.nul_mem (h : limit.toRule x id = .ok rule) (hshift : Shifted rule rule') :
    '\x00' ∈ rule'.domain.toList ∧ ∃ p ∈ rule.descriptors.head?, '\x00' ∈ p.value.toList := by
  obtain ⟨p, p', rest, m, hps, -, hdomain, htext⟩ := hshift
  refine ⟨?_, p, by rw [hps]; rfl, ?_⟩
  · rw [hdomain, toList_append_nul]
    exact List.mem_append_right _ List.mem_cons_self
  · -- the first text has one NUL behind its key, and the other two
    have hkey := (toRule_descriptors h).2 p (by rw [hps]; exact List.mem_cons_self)
    have hcount := congrArg (fun text => text.toList.count '\x00') htext
    simp only [descriptorText, toList_append_nul, List.count_append, List.count_cons_self,
      List.count_eq_zero.2 hkey] at hcount
    exact List.count_pos_iff.1 (by omega)

/-- **Different rules are hashed from different bytes**, unless the border between domain and
    first pattern has moved.  That takes a NUL in a domain and one in a first value. -/
theorem fingerprint_inputs_differ_iff (h : limit.toRule x id = .ok rule)
    (h' : limit'.toRule x' id' = .ok rule') :
    ((rule.domain ≠ rule'.domain ∨ rule.descriptors ≠ rule'.descriptors →
        fingerprintInput rule.domain rule.descriptors ≠
          fingerprintInput rule'.domain rule'.descriptors) ↔
      ¬ Shifted rule rule' ∧ ¬ Shifted rule' rule) ∧
    (Shifted rule rule' →
      '\x00' ∈ rule'.domain.toList ∧ ∃ p ∈ rule.descriptors.head?, '\x00' ∈ p.value.toList) := by
  refine ⟨?_, fun hshift => hshift.nul_mem h⟩
  rw [Ne.eq_def (fingerprintInput _ _), fingerprintInput_eq_iff h h']
  constructor
  · intro hdiffer
    refine ⟨fun hshift => ?_, fun hshift => ?_⟩
    · exact hdiffer (.inl hshift.domain_ne) (.inr (.inl hshift))
    · exact hdiffer (.inl hshift.domain_ne.symm) (.inr (.inr hshift))
  · rintro ⟨hshift, hshift'⟩ hne (⟨hdomain, hsame⟩ | hs | hs)
    · exact hne.elim (· hdomain) (· hsame)
    · exact hshift hs
    · exact hshift' hs

/-! ### Rules for examples -/

/-- No crate is needed for a rate per second. -/
def plainCrates : RuleCrates where
  hash := fun _ => 0
  parseDuration := fun _ => none

def plainLimit (name domain key value rate : String) : LimitRuleConfig where
  name := name
  domain := domain
  descriptors := [⟨key, value⟩]
  rate := rate
  window := none
  bucket := none
  mode := .enforce

def plainRule (id : ℕ) (domain key value : String) (limit : ℕ) : Rule :=
  Rule.new plainCrates id domain [⟨key, value⟩] limit 1000 1000 .enforce

theorem resolveRate_second {count : ℕ} (h : count ≤ 1000) :
    resolveRate count (Duration.fromSecs 1) none none = .ok ⟨count, 1000, 1000⟩ := by
  have hsecond : Duration.fromSecs 1 ≠ 0 := by decide
  have hmillis : durationToMillis (Duration.fromSecs 1) = 1000 := by decide
  have hmax : 1000000 ≤ u64Max := by decide
  simp only [resolveRate, Option.getD_none, hmillis]
  rw [if_neg hsecond, if_neg (lt_irrefl _), if_neg hsecond, if_neg (by omega),
    Nat.max_eq_left (by norm_num), Nat.mul_div_cancel _ (by norm_num)]

theorem plainLimit_toRule {key rate : String} {count : ℕ} (hkey : isDescriptorKey key = true)
    (hrate : parseRate plainCrates rate = .ok (count, Duration.fromSecs 1)) (hcount : count ≤ 1000)
    (id : ℕ) (name domain value : String) :
    (plainLimit name domain key value rate).toRule plainCrates id =
      .ok (plainRule id domain key value count) := by
  have hkeys : ∀ d ∈ (plainLimit name domain key value rate).descriptors,
      isDescriptorKey d.key = true := by
    intro d hd
    rw [List.mem_singleton.1 hd]
    exact hkey
  have hresolve : resolveRate count (Duration.fromSecs 1) (plainLimit name domain key value rate).window
      (plainLimit name domain key value rate).bucket = .ok ⟨count, 1000, 1000⟩ :=
    resolveRate_second hcount
  exact toRule_of (List.cons_ne_nil _ _) hkeys hrate hresolve id

theorem parseRate_one : parseRate plainCrates "1r/s" = .ok (1, Duration.fromSecs 1) := rfl

theorem parseRate_two : parseRate plainCrates "2r/s" = .ok (2, Duration.fromSecs 1) := rfl

/-- **Two rules with one fingerprint**: the domain `a` with `b = "c\0d"`, and the domain `a\0b`
    with `c = "d"`. -/
theorem nul_moves_border : ∃ rule rule',
    (plainLimit "first" "a" "b" "c\x00d" "1r/s").toRule plainCrates 1 = .ok rule ∧
    (plainLimit "second" "a\x00b" "c" "d" "1r/s").toRule plainCrates 2 = .ok rule' ∧
    rule.domain ≠ rule'.domain ∧ rule.descriptors ≠ rule'.descriptors ∧
    fingerprintInput rule.domain rule.descriptors =
      fingerprintInput rule'.domain rule'.descriptors := by
  have hb : isDescriptorKey "b" = true := by decide
  have hc : isDescriptorKey "c" = true := by decide
  refine ⟨_, _, plainLimit_toRule hb parseRate_one (by norm_num) ..,
    plainLimit_toRule hc parseRate_one (by norm_num) .., ?_, ?_, ?_⟩
  · show "a" ≠ "a\x00b"
    decide
  · show [DescriptorPattern.mk "b" "c\x00d"] ≠ [⟨"c", "d"⟩]
    decide
  · show fingerprintInput "a" [⟨"b", "c\x00d"⟩] = fingerprintInput "a\x00b" [⟨"c", "d"⟩]
    decide +kernel

theorem fingerprint_inputs_differ_users :
    fingerprintInput "api" [⟨"user", "*"⟩] ≠ fingerprintInput "api" [⟨"ip", "*"⟩] := by
  have hkeys : isDescriptorKey "user" = true ∧ isDescriptorKey "ip" = true := by decide
  have huser := plainLimit_toRule hkeys.1 parseRate_one (by norm_num) 1 "users" "api" "*"
  have hip := plainLimit_toRule hkeys.2 parseRate_one (by norm_num) 2 "addresses" "api" "*"
  have hnul : '\x00' ∉ "api".toList := by decide
  obtain ⟨hdiffer, hshift⟩ := fingerprint_inputs_differ_iff huser hip
  obtain ⟨-, hshift'⟩ := fingerprint_inputs_differ_iff hip huser
  exact hdiffer.2 ⟨fun h => hnul (hshift h).1, fun h => hnul (hshift' h).1⟩
    (.inr (by show [DescriptorPattern.mk "user" "*"] ≠ [⟨"ip", "*"⟩]; decide))

/-! ## Keys -/

/-- What a rule says about a request it matches. -/
theorem Rule.fits_spec {domain : String} {ds : List Descriptor} (h : rule.fits x domain ds = true) :
    rule.domainHash = hashDomain x domain ∧
      ds.map Descriptor.key = rule.descriptors.map DescriptorPattern.key := by
  unfold Rule.fits at h
  simp only [Bool.and_eq_true, decide_eq_true_eq] at h
  obtain ⟨⟨⟨-, hdomain⟩, hlen⟩, hall⟩ := h
  refine ⟨hdomain, ?_⟩
  generalize rule.descriptors = ps at hlen hall
  induction ps generalizing ds with
  | nil =>
    rw [List.length_eq_zero_iff.1 hlen.symm]
    rfl
  | cons p ps ih =>
    cases ds with
    | nil => cases hlen
    | cons d ds =>
      rw [List.zip_cons_cons, List.all_cons, Bool.and_eq_true] at hall
      obtain ⟨hp, hall⟩ := hall
      simp only [DescriptorPattern.matches, Bool.and_eq_true, decide_eq_true_eq] at hp
      rw [List.map_cons, List.map_cons, ih (Nat.succ.inj hlen) hall, hp.1]

/-- The texts of a request's descriptors. -/
def descriptorTexts (ds : List Descriptor) : List String := ds.map fun d => descriptorText d.key d.value

/-- Under the same keys the texts stand for the values, whatever characters these have. -/
theorem descriptorTexts_inj {ds ds' : List Descriptor}
    (hkeys : ds.map Descriptor.key = ds'.map Descriptor.key) :
    descriptorTexts ds = descriptorTexts ds' ↔ ds.map Descriptor.value = ds'.map Descriptor.value := by
  induction ds generalizing ds' with
  | nil =>
    rw [List.map_eq_nil_iff.1 hkeys.symm]
    exact ⟨fun _ => rfl, fun _ => rfl⟩
  | cons d ds ih =>
    cases ds' with
    | nil => cases hkeys
    | cons d' ds' =>
      obtain ⟨hkey, hkeys⟩ := List.cons.inj hkeys
      have htext : descriptorText d.key d.value = descriptorText d'.key d'.value ↔
          d.value = d'.value := by
        rw [descriptorText, descriptorText, hkey, ← String.toList_inj, toList_append_nul,
          toList_append_nul, List.append_cancel_left_eq, List.cons_inj_right, String.toList_inj]
      simp only [descriptorTexts, List.map_cons, List.cons.injEq, htext] at ih ⊢
      rw [ih hkeys]

/-- The rule id has a fixed place in the input of a key. -/
theorem keyInput_inj {i i' : ℕ} (hi : i < 2 ^ 64) (hi' : i' < 2 ^ 64) {d d' : String}
    {ds ds' : List Descriptor} : keyInput i d ds = keyInput i' d' ds' ↔
      i = i' ∧ utf8 d ++ [0] ++ joinTexts (descriptorTexts ds) =
        utf8 d' ++ [0] ++ joinTexts (descriptorTexts ds') := by
  have hinput : ∀ i d ds, keyInput i d ds = utf8 "gabion.key.v1" ++ [0] ++
      (Bytes.toLE 8 i ++ (utf8 d ++ [0] ++ joinTexts (descriptorTexts ds))) := by
    intro i d ds
    rw [keyInput, writeDescriptors_eq, List.map_map]
    simp only [List.append_assoc]
    rfl
  rw [hinput, hinput, List.append_cancel_left_eq]
  constructor
  · intro h
    obtain ⟨hle, hrest⟩ := List.append_inj h (by simp)
    have hid := congrArg Bytes.ofLE hle
    rw [Bytes.ofLE_toLE, Bytes.ofLE_toLE, Nat.mod_eq_of_lt (by omega), Nat.mod_eq_of_lt (by omega)] at hid
    exact ⟨hid, hrest⟩
  · rintro ⟨rfl, hrest⟩
    rw [hrest]

/-- **Keys stand for rules and values**: two requests that match rules of the table are hashed
    from the same bytes if and only if the rule is the same and the values are. -/
def KeysDistinct (x : RuleCrates) (table : RuleTable) (domains : Set String) : Prop :=
  ∀ (i j : ℕ) (rule rule' : Rule), table[i]? = some rule → table[j]? = some rule' →
    ∀ d ∈ domains, ∀ d' ∈ domains, ∀ ds ds' : List Descriptor,
      rule.fits x d ds = true → rule'.fits x d' ds' = true →
      (keyInput rule.id d ds = keyInput rule'.id d' ds' ↔
        i = j ∧ ds.map Descriptor.value = ds'.map Descriptor.value)

variable {limits : List LimitRuleConfig} {table : RuleTable} {domains : Set String}

/-- The hashes of a rule are those of its domain and patterns. -/
structure Rule.Derived (x : RuleCrates) (rule : Rule) : Prop where
  fingerprint : rule.fingerprint = ruleFingerprint x rule.domain rule.descriptors
  domainHash : rule.domainHash = hashDomain x rule.domain

theorem ruleTable_derived (h : ruleTable x limits = .ok table) {rule : Rule} (hr : rule ∈ table) :
    rule.Derived x := by
  obtain ⟨i, hi⟩ := List.mem_iff_getElem?.1 hr
  obtain ⟨limit, -, hrule⟩ := (ruleTableFrom_ok h).2 i rule hi
  obtain ⟨count, window, bucket, rfl⟩ := toRule_ok hrule
  exact ⟨rfl, rfl⟩

theorem keysDistinct_of_length (h : ruleTable x limits = .ok table) (hlen : table.length ≤ 2 ^ 32)
    (hinj : Set.InjOn (hashDomain x) domains) (hdomains : ∀ rule ∈ table, rule.domain ∈ domains) :
    KeysDistinct x table domains := by
  intro i j rule rule' hi hj d hd d' hd' ds ds' hfits hfits'
  have hid := ruleTable_get h hi
  have hid' := ruleTable_get h hj
  obtain ⟨hhash, hkeys⟩ := Rule.fits_spec hfits
  obtain ⟨hhash', hkeys'⟩ := Rule.fits_spec hfits'
  -- a domain with the hash of the rule's domain is that domain
  have hown : ∀ {rule : Rule} {d : String}, rule ∈ table → d ∈ domains →
      rule.domainHash = hashDomain x d → d = rule.domain := fun hmem hd hhash =>
    (hinj (hdomains _ hmem) hd ((ruleTable_derived h hmem).domainHash.symm.trans hhash)).symm
  have hdomain := hown (List.mem_iff_getElem?.2 ⟨i, hi⟩) hd hhash
  have hdomain' := hown (List.mem_iff_getElem?.2 ⟨j, hj⟩) hd' hhash'
  rw [keyInput_inj (by rw [hid]; omega) (by rw [hid']; omega)]
  constructor
  · rintro ⟨hsame, hrest⟩
    have hij : i = j := by
      have hlt := (List.getElem?_eq_some_iff.1 hi).1
      have hlt' := (List.getElem?_eq_some_iff.1 hj).1
      rw [hid, hid'] at hsame
      omega
    subst hij
    obtain rfl : rule = rule' := Option.some.inj (hi.symm.trans hj)
    rw [hdomain, hdomain', List.append_cancel_left_eq, joinTexts_injective.eq_iff,
      descriptorTexts_inj (hkeys.trans hkeys'.symm)] at hrest
    exact ⟨rfl, hrest⟩
  · rintro ⟨rfl, hvalues⟩
    obtain rfl : rule = rule' := Option.some.inj (hi.symm.trans hj)
    rw [hdomain, hdomain', (descriptorTexts_inj (hkeys.trans hkeys'.symm)).2 hvalues]
    exact ⟨rfl, rfl⟩

/-! ### Reused ids -/

/-- Limits of one shape, with names of different lengths; the first has a limit of its own. -/
def crowdLimit (i : ℕ) : LimitRuleConfig :=
  plainLimit (String.ofList (List.replicate i 'r')) "api" "user" "*" (if i = 0 then "1r/s" else "2r/s")

def crowdRule (i : ℕ) : Rule :=
  plainRule ((i + 1) % 2 ^ 32) "api" "user" "*" (if i = 0 then 1 else 2)

theorem crowdLimit_toRule (i : ℕ) :
    (crowdLimit i).toRule plainCrates ((i + 1) % 2 ^ 32) = .ok (crowdRule i) := by
  have hkey : isDescriptorKey "user" = true := by decide
  unfold crowdLimit crowdRule
  split_ifs
  · exact plainLimit_toRule hkey parseRate_one (by norm_num) ..
  · exact plainLimit_toRule hkey parseRate_two (by norm_num) ..

theorem ruleTableFrom_crowd (m k : ℕ) :
    ruleTableFrom plainCrates ((List.range k).map crowdLimit) ((List.range' k m).map crowdLimit) =
      .ok ((List.range' k m).map crowdRule) := by
  induction m generalizing k with
  | zero => rfl
  | succ m ih =>
    have hnames : (((List.range k).map crowdLimit).any fun e => e.name = (crowdLimit k).name) = false := by
      rw [List.any_eq_false]
      intro e he
      obtain ⟨i, hi, rfl⟩ := List.mem_map.1 he
      have hlt := List.mem_range.1 hi
      intro hname
      have hlen := congrArg (fun name => name.toList.length) (of_decide_eq_true hname)
      simp only [crowdLimit, plainLimit, String.toList_ofList, List.length_replicate] at hlen
      omega
    have hearlier : (List.range k).map crowdLimit ++ [crowdLimit k] =
        (List.range (k + 1)).map crowdLimit := by
      rw [List.range_succ, List.map_append]
      rfl
    rw [List.range'_succ, List.map_cons, List.map_cons, ruleTableFrom, if_neg (by rw [hnames]; simp),
      List.length_map, List.length_range, crowdLimit_toRule, hearlier, ih]

theorem ruleTable_crowd (n : ℕ) :
    ruleTable plainCrates ((List.range n).map crowdLimit) = .ok ((List.range n).map crowdRule) := by
  rw [List.range_eq_range']
  exact ruleTableFrom_crowd n 0

theorem crowdRule_fits (i : ℕ) :
    (crowdRule i).fits plainCrates "api" [⟨"user", "alice"⟩] = true := by
  simp [Rule.fits, crowdRule, plainRule, Rule.new, DescriptorPattern.matches]

/-- The rules `2 ^ 32` apart have the same id. -/
theorem crowdRule_id : (crowdRule (2 ^ 32)).id = (crowdRule 0).id := by
  show (2 ^ 32 + 1) % 2 ^ 32 = (0 + 1) % 2 ^ 32
  norm_num

theorem crowdRule_ne : crowdRule 0 ≠ crowdRule (2 ^ 32) := by
  intro h
  have hlimit : (1 : ℕ) = 2 := congrArg Rule.limit h
  omega

/-- **Keys stand for rules and values in all tables of `n` rules, if and only if `n ≤ 2 ^ 32`.**
    Equal domain hashes are taken to mean equal domains, among any set of domains that has those
    of the rules and of the requests. -/
theorem keysDistinct_iff (n : ℕ) :
    (∀ (x : RuleCrates) (limits : List LimitRuleConfig) (table : RuleTable) (domains : Set String),
      ruleTable x limits = .ok table → table.length = n → Set.InjOn (hashDomain x) domains →
      (∀ rule ∈ table, rule.domain ∈ domains) → KeysDistinct x table domains) ↔ n ≤ 2 ^ 32 := by
  constructor
  · intro h
    by_contra hn
    have hget : ∀ i < n, ((List.range n).map crowdRule)[i]? = some (crowdRule i) := fun i hi => by
      rw [List.getElem?_map, List.getElem?_range hi, Option.map_some]
    have hkeys := h plainCrates _ _ {"api"} (ruleTable_crowd n)
      (by rw [List.length_map, List.length_range]) (Set.injOn_singleton _ _) (by
        intro rule hrule
        obtain ⟨i, -, rfl⟩ := List.mem_map.1 hrule
        rfl)
    have hiff := hkeys 0 (2 ^ 32) _ _ (hget 0 (by omega)) (hget (2 ^ 32) (by omega)) "api" rfl "api"
      rfl [⟨"user", "alice"⟩] [⟨"user", "alice"⟩] (crowdRule_fits 0) (crowdRule_fits _)
    rw [crowdRule_id] at hiff
    have hzero : 0 = 2 ^ 32 := (hiff.1 rfl).1
    norm_num at hzero
  · rintro hn x limits table domains h rfl hinj hdomains
    exact keysDistinct_of_length h hn hinj hdomains

/-- **Two rules that share their keys**: the first of `2 ^ 32 + 1` rules and the last. -/
theorem crowd_shares_keys : ∃ limits table, ruleTable plainCrates limits = .ok table ∧
    table.length = 2 ^ 32 + 1 ∧ Set.InjOn (hashDomain plainCrates) {"api"} ∧
    ∃ rule rule', table[0]? = some rule ∧ table[2 ^ 32]? = some rule' ∧ rule ≠ rule' ∧
      rule.fits plainCrates "api" [⟨"user", "alice"⟩] = true ∧
      rule'.fits plainCrates "api" [⟨"user", "alice"⟩] = true ∧
      keyInput rule.id "api" [⟨"user", "alice"⟩] = keyInput rule'.id "api" [⟨"user", "alice"⟩] := by
  refine ⟨_, _, ruleTable_crowd (2 ^ 32 + 1), by rw [List.length_map, List.length_range],
    Set.injOn_singleton _ _, crowdRule 0, crowdRule (2 ^ 32), ?_, ?_, crowdRule_ne, crowdRule_fits _,
    crowdRule_fits _, by rw [crowdRule_id]⟩
  · rw [List.getElem?_map, List.getElem?_range (by norm_num), Option.map_some]
  · rw [List.getElem?_map, List.getElem?_range (by norm_num), Option.map_some]

end Gabion
