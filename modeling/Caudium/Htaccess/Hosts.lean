import Caudium.Htaccess.Access
import Caudium.Config.Regions
import Caudium.Lib.Split

/-!
# Host rules

What the entries of an allow and a deny set mean, and when `htaccess` goes by it. Two things get in
between. The loop compares the labels of an entry with the end of a host name whatever it is, so the
numbers of an address are found at the end of a name or, in the pass without a name, at the end of
the address (`Rule.Stray`). And in the pass without a name a deny set without a match counts as one
that matches: under "allow,deny" this puts a decision off to the second pass, under
"mutual-failure" it lets everyone in whose address alone is allowed, denied or not.

`hosts_iff` has the cases in which what is left comes to the same.
-/

namespace Caudium.Htaccess

open Lib (Str Mapping)
open Http (castInt lowerCase splitOn number)

/-! ## Entries -/

/-- A number of eight bits, as it is written. -/
def IsOctet (p : Str) : Prop := ∃ n < 256, p = Nat.toDigits 10 n

/-- The numbers of an address, or the first ones. -/
def IsNumber (s : Str) : Prop :=
  labels s ≠ [] ∧ (labels s).length ≤ 4 ∧ ∀ p ∈ labels s, IsOctet p

/-- A host or a domain: some label is not all digits. -/
def IsName (s : Str) : Prop := s ≠ "all".toList ∧ ∃ p ∈ labels s, ∃ c ∈ p, c.isDigit = false

/-- A whole address. -/
def IsAddress (ip : Str) : Prop :=
  ∃ parts : List Str, parts.length = 4 ∧ (∀ p ∈ parts, IsOctet p) ∧ ip = ['.'].intercalate parts

/-- An entry of a set. -/
inductive Rule
  | all
  | number (s : Str) (h : IsNumber s)
  | name (s : Str) (h : IsName s)

def Rule.text : Rule → Str
  | .all => "all".toList
  | .number s _ => s
  | .name s _ => s

def octets (s : Str) : List Nat := (labels s).map number

/-- What an entry means. -/
def Rule.Matches (host ip : Str) : Rule → Prop
  | .all => True
  | .number s _ => octets s <+: octets ip
  | .name s _ => labels (lowerCase s) <:+ labels (lowerCase host)

/-- The numbers of an entry end a list of labels. -/
def Rule.Stray (of : List Str) : Rule → Prop
  | .all => False
  | .number s _ => labels s <:+ of
  | .name _ _ => False

/-! ## One entry -/

theorem endsWith_iff {tmp1 tmp2 : List Str} : endsWith tmp1 tmp2 = true ↔ tmp1 <:+ tmp2 := by
  rw [endsWith, Bool.and_eq_true, decide_eq_true_eq, decide_eq_true_eq]
  constructor
  · intro h
    exact List.suffix_iff_eq_drop.mpr h.2
  · intro h
    exact ⟨h.length_le, List.suffix_iff_eq_drop.mp h⟩

theorem startsWith_iff {tmp1 tmp2 : List Str} : startsWith tmp1 tmp2 = true ↔ tmp1 <+: tmp2 := by
  rw [startsWith, Bool.and_eq_true, decide_eq_true_eq, decide_eq_true_eq]
  constructor
  · intro h
    exact List.prefix_iff_eq_take.mpr h.2
  · intro h
    exact ⟨h.length_le, List.prefix_iff_eq_take.mp h⟩

theorem IsOctet.isDigit {p : Str} (h : IsOctet p) {c : Char} (hc : c ∈ p) : c.isDigit = true := by
  obtain ⟨n, -, rfl⟩ := h
  exact Config.isDigit_of_mem hc

theorem IsOctet.ne_nil {p : Str} (h : IsOctet p) : p ≠ [] := by
  obtain ⟨n, -, rfl⟩ := h
  exact Nat.toDigits_ne_nil

/-- An octet is told from the number it is. -/
theorem IsOctet.toDigits_number {p : Str} (h : IsOctet p) : Nat.toDigits 10 (number p) = p := by
  obtain ⟨n, -, rfl⟩ := h
  rw [Config.number_toDigits]

theorem map_toDigits {ps : List Str} (h : ∀ p ∈ ps, IsOctet p) :
    (ps.map number).map (Nat.toDigits 10) = ps := by
  rw [List.map_map]
  exact (List.map_congr_left fun p hp => (h p hp).toDigits_number).trans (List.map_id ps)

theorem labels_address {parts : List Str} (hne : parts ≠ []) (h : ∀ p ∈ parts, IsOctet p) :
    labels (['.'].intercalate parts) = parts := by
  have hsplit : splitOn '.' (['.'].intercalate parts) = parts :=
    List.splitOn_intercalate '.' (fun p hp hdot => absurd ((h p hp).isDigit hdot) (by decide)) hne
  rw [labels, hsplit]
  refine List.filter_eq_self.mpr fun p hp => ?_
  rw [decide_eq_true_eq]
  exact (h p hp).ne_nil

/-- What is used of an address. -/
theorem IsAddress.octets {ip : Str} (h : IsAddress ip) :
    (∀ p ∈ labels ip, IsOctet p) ∧ (splitOn '.' ip).head? = (labels ip).head? ∧
      ip = ['.'].intercalate (labels ip) := by
  obtain ⟨parts, hlen, hparts, rfl⟩ := h
  have hne : parts ≠ [] := by
    intro he
    rw [he] at hlen
    cases hlen
  have hlabels := labels_address hne hparts
  rw [hlabels]
  refine ⟨hparts, ?_, rfl⟩
  rw [show splitOn '.' (['.'].intercalate parts) = parts from
    List.splitOn_intercalate '.' (fun p hp hdot => absurd ((hparts p hp).isDigit hdot) (by decide))
      hne]

/-- Numbers and dots have no upper case. -/
theorem lowerCase_digits {s : Str} (h : ∀ c ∈ s, c = '.' ∨ c.isDigit = true) : lowerCase s = s := by
  refine (List.map_congr_left fun c hc => ?_).trans (List.map_id s)
  rw [if_neg]
  · rfl
  · rcases h c hc with rfl | hdigit
    · decide
    · have := Config.digit_bounds hdigit
      omega

/-- A character is a dot or in a label. -/
theorem mem_labels {s : Str} {c : Char} (hc : c ∈ s) : c = '.' ∨ ∃ p ∈ labels s, c ∈ p := by
  by_cases hdot : c = '.'
  · exact Or.inl hdot
  · obtain ⟨p, hp, h⟩ := Lib.exists_piece hc hdot
    exact Or.inr ⟨p, List.mem_filter.mpr ⟨hp, decide_eq_true (List.ne_nil_of_mem h)⟩, h⟩

theorem mem_of_labels {s p : Str} (hp : p ∈ labels s) {c : Char} (hc : c ∈ p) :
    c ∈ s ∧ c ≠ '.' := by
  have hpiece : p ∈ s.splitOn '.' := List.mem_of_mem_filter hp
  exact ⟨Lib.mem_of_piece hpiece hc, fun he => Lib.not_mem_of_mem_splitOn hpiece (he ▸ hc)⟩

/-- A text whose labels are numbers has no other characters. -/
theorem digits_of_octets {s : Str} (h : ∀ p ∈ labels s, IsOctet p) {c : Char} (hc : c ∈ s) :
    c = '.' ∨ c.isDigit = true := by
  rcases mem_labels hc with hdot | ⟨p, hp, hmem⟩
  · exact Or.inl hdot
  · exact Or.inr ((h p hp).isDigit hmem)

theorem lowerCase_octets {s : Str} (h : ∀ p ∈ labels s, IsOctet p) : lowerCase s = s :=
  lowerCase_digits fun _ hc => digits_of_octets h hc

/-- The labels of a name are no numbers, in lower case either. -/
theorem IsName.not_octets {s : Str} (h : IsName s) : ¬ ∀ p ∈ labels (lowerCase s), IsOctet p := by
  intro hall
  obtain ⟨-, p, hp, c, hc, hdigit⟩ := h
  obtain ⟨hmem, hdot⟩ := mem_of_labels hp hc
  have hlower := digits_of_octets hall (List.mem_map.mpr ⟨c, hmem, rfl⟩)
  split at hlower
  next hupper =>
    have hval : (Char.ofNat (c.toNat + 32)).toNat = c.toNat + 32 := by
      have hvalid : (c.toNat + 32).isValidChar := Or.inl (by omega)
      rw [Char.ofNat, dif_pos hvalid]
      rfl
    rcases hlower with h | h
    · rw [h] at hval
      have : '.'.toNat = 46 := rfl
      omega
    · have := Config.digit_bounds h
      omega
  next =>
    rcases hlower with h | h
    · exact hdot h
    · rw [hdigit] at h
      cases h

/-- The first number of an address, as an entry. -/
theorem IsAddress.first {ip s : Str} (hip : IsAddress ip) (hs : (splitOn '.' ip).head? = some s) :
    IsOctet s ∧ labels s = [s] ∧ [s] <+: labels ip := by
  obtain ⟨hocts, hhead, -⟩ := hip.octets
  rw [hhead] at hs
  have hoct := hocts s (List.mem_of_mem_head? hs)
  refine ⟨hoct, ?_, ?_⟩
  · have := labels_address (List.cons_ne_nil s []) (List.forall_mem_singleton.mpr hoct)
    rwa [List.intercalate_singleton] at this
  · obtain ⟨rest, hrest⟩ := List.head?_eq_some_iff.mp hs
    exact ⟨rest, hrest.symm⟩

/-- The tests of the loop. -/
theorem matchesHost_or {host ip s : Str} : matchesHost host ip s = true ↔
    ((((s = "all".toList ∨ s = ip) ∨ s = host) ∨
      (castInt s ≠ 0 ∧ (splitOn '.' ip).head? = some s)) ∨
      labels (lowerCase s) <:+ labels (lowerCase host)) ∨ labels (lowerCase s) <+: labels ip := by
  rw [matchesHost]
  simp only [Bool.or_eq_true, Bool.and_eq_true, decide_eq_true_eq, endsWith_iff, startsWith_iff]

/-- The numbers of an address, or of its beginning, match there and at any end. -/
theorem matchesHost_number {host ip s : Str} (hip : IsAddress ip)
    (h : ∀ p ∈ labels s, IsOctet p) : matchesHost host ip s = true ↔
      octets s <+: octets ip ∨ labels s <:+ labels (lowerCase host) := by
  obtain ⟨hocts, -, -⟩ := hip.octets
  have hlower := lowerCase_octets h
  have hprefix : octets s <+: octets ip ↔ labels s <+: labels ip := by
    constructor
    · intro hp
      have hmap := hp.map (Nat.toDigits 10)
      rwa [octets, octets, map_toDigits h, map_toDigits hocts] at hmap
    · exact fun hp => hp.map number
  rw [matchesHost_or, hlower, hprefix]
  constructor
  · intro hmatch
    obtain ((((hall | he) | he) | ⟨-, hs⟩) | hsuffix) | hpre := hmatch
    · subst hall
      exact absurd (digits_of_octets h (c := 'a') (by decide)) (by decide)
    · rw [he]
      exact Or.inl (List.prefix_refl _)
    · rw [← he, hlower]
      exact Or.inr (List.suffix_refl _)
    · rw [(hip.first hs).2.1]
      exact Or.inl (hip.first hs).2.2
    · exact Or.inr hsuffix
    · exact Or.inl hpre
  · intro hmatch
    obtain hpre | hsuffix := hmatch
    · exact Or.inr hpre
    · exact Or.inl (Or.inr hsuffix)

/-- A name matches at the end. -/
theorem matchesHost_name {host ip s : Str} (hip : IsAddress ip) (h : IsName s) :
    matchesHost host ip s = true ↔ labels (lowerCase s) <:+ labels (lowerCase host) := by
  obtain ⟨hocts, -, -⟩ := hip.octets
  have hnot := h.not_octets
  rw [matchesHost_or]
  constructor
  · intro hmatch
    obtain ((((hall | he) | he) | ⟨-, hs⟩) | hsuffix) | hpre := hmatch
    · exact absurd hall h.1
    · rw [he, lowerCase_octets hocts] at hnot
      exact absurd hocts hnot
    · rw [he]
    · have hself := hip.first hs
      refine absurd (fun p hp => ?_) hnot
      have hone : ∀ p ∈ labels s, IsOctet p := by
        rw [hself.2.1]
        exact List.forall_mem_singleton.mpr hself.1
      rw [lowerCase_octets hone] at hp
      exact hone p hp
    · exact hsuffix
    · exact absurd (fun p hp => hocts p (hpre.subset hp)) hnot
  · intro hsuffix
    exact Or.inl (Or.inr hsuffix)

/-- **One entry** matches as it should, or by its end. -/
theorem matchesHost_iff {host ip : Str} (hip : IsAddress ip) (r : Rule) :
    matchesHost host ip r.text = true ↔
      r.Matches host ip ∨ r.Stray (labels (lowerCase host)) := by
  cases r with
  | all =>
    rw [matchesHost_or]
    exact iff_of_true (Or.inl (Or.inl (Or.inl (Or.inl (Or.inl rfl))))) (Or.inl trivial)
  | number s h => exact matchesHost_number hip h.2.2
  | name s h =>
    rw [Rule.text, Rule.Matches, Rule.Stray, or_false]
    exact matchesHost_name hip h

/-! ## Sets -/

/-- A set as it stands in a record, where there is none if there are no entries. -/
def setOf (rules : List Rule) : Option (List Str) :=
  if rules = [] then none else some (rules.map Rule.text)

/-- Some entry matches. -/
def Listed (host ip : Str) (rules : List Rule) : Prop := ∃ r ∈ rules, r.Matches host ip

/-- Some entry has its numbers at the end. -/
def StrayIn (of : List Str) (rules : List Rule) : Prop := ∃ r ∈ rules, r.Stray of

/-- `order`. -/
inductive Order
  | allowDeny
  | mutualFailure

def Order.value : Order → Int
  | .allowDeny => 1
  | .mutualFailure => -1

/-- A record with host rules, "satisfy all" and nothing about users. -/
structure HostRecord (r : Record) (order : Order) (allow deny : List Rule) : Prop where
  given : allow ≠ [] ∨ deny ≠ []
  allow : r.items "allow".toList = setOf allow
  deny : r.items "deny".toList = setOf deny
  order : r.lookup "order".toList = some (.int order.value)
  all : r.lookup "all".toList = some (.int 1)
  noUsers : r.items "user".toList = none ∧ r.has "valid-user".toList = false ∧
    r.items "group".toList = none

/-- The request is checked against the record. -/
structure Governs (access : Access) (id : Request) (r : Record) : Prop where
  stays : access.redirect = none
  record : ∃ method, methodOf access.records (lowerCase id.method) = .ok method ∧
    access.records.lookup method = some r

/-- Through. -/
def LetIn (env : Env) (access : Access) (id : Request) : Prop :=
  htaccess env access id = some (.ok, .unchanged)

/-- What comes to the same in spite of numbers at the end and of the default: the entries that match
a client by its name and address, those whose numbers end the name or the address, and what
matches without the name. -/
def Settles (order : Order) (allow deny : List Rule) (host ip : Str) : Prop :=
  let strays := StrayIn (labels (lowerCase host))
  let alone := Listed ip ip allow ∨ StrayIn (labels ip) allow
  match order with
  | .allowDeny =>
    (¬ Listed host ip allow → strays allow ∨ (deny = [] ∧ alone) →
      Listed host ip deny ∨ strays deny) ∧
    (Listed host ip allow → strays deny → Listed host ip deny)
  | .mutualFailure =>
    (deny = [] → ¬ Listed host ip allow) ∧
    (deny ≠ [] → alone → Listed host ip allow ∧ ¬ Listed host ip deny) ∧
    (¬ alone → Listed host ip allow → deny ≠ [] → strays deny ∧ ¬ Listed host ip deny) ∧
    (¬ alone → ¬ Listed host ip allow → strays allow → ¬ Listed host ip deny ∧ ¬ strays deny)

theorem Listed.ne_nil {host ip : Str} {rules : List Rule} (h : Listed host ip rules) :
    rules ≠ [] := by
  obtain ⟨r, hr, -⟩ := h
  exact List.ne_nil_of_mem hr

theorem StrayIn.ne_nil {of : List Str} {rules : List Rule} (h : StrayIn of rules) : rules ≠ [] := by
  obtain ⟨r, hr, -⟩ := h
  exact List.ne_nil_of_mem hr

theorem allowed_iff (host : Str) {ip : Str} (hip : IsAddress ip) (rules : List Rule) (dflt : Bool) :
    allowed (setOf rules) host ip dflt = true ↔
      (Listed host ip rules ∨ StrayIn (labels (lowerCase host)) rules) ∨
        (rules ≠ [] ∧ host = ip ∧ dflt = true) := by
  have hsome : (rules.map Rule.text).any (matchesHost host ip) = true ↔
      Listed host ip rules ∨ StrayIn (labels (lowerCase host)) rules := by
    rw [List.any_eq_true]
    constructor
    · intro ⟨s, hs, hmatch⟩
      obtain ⟨r, hr, rfl⟩ := List.mem_map.mp hs
      exact ((matchesHost_iff hip r).mp hmatch).imp (fun h => ⟨r, hr, h⟩) fun h => ⟨r, hr, h⟩
    · intro hor
      obtain ⟨r, hr, h⟩ | ⟨r, hr, h⟩ := hor
      · exact ⟨r.text, List.mem_map.mpr ⟨r, hr, rfl⟩, (matchesHost_iff hip r).mpr (Or.inl h)⟩
      · exact ⟨r.text, List.mem_map.mpr ⟨r, hr, rfl⟩, (matchesHost_iff hip r).mpr (Or.inr h)⟩
  unfold setOf
  split
  next he =>
    refine iff_of_false nofun ?_
    intro hor
    obtain (h | h) | h := hor
    · exact h.ne_nil he
    · exact h.ne_nil he
    · exact h.1 he
  next hne =>
    rw [allowed, if_neg (fun he => hne (List.map_eq_nil_iff.mp he)), ← hsome]
    split
    next h => exact iff_of_true rfl (Or.inl h)
    next h =>
      rw [or_iff_right h]
      split
      next hself => exact ⟨fun hd => ⟨hne, hself, hd⟩, fun hd => hd.2.2⟩
      next hself => exact iff_of_false nofun fun hd => hself hd.2.1

/-- **One pass**: some entry allows, and whether one denies goes by the order. -/
theorem hostPass_iff {r : Record} {order : Order} {allow deny : List Rule}
    (hr : HostRecord r order allow deny) (host : Str) {ip : Str} (hip : IsAddress ip) :
    hostPass r host ip = true ↔
      (Listed host ip allow ∨ StrayIn (labels (lowerCase host)) allow) ∧
      ((Listed host ip deny ∨ StrayIn (labels (lowerCase host)) deny) ∨
        (deny ≠ [] ∧ host = ip) ↔ order = .mutualFailure) := by
  have hallow := allowed_iff host hip allow false
  have hdeny := allowed_iff host hip deny true
  rw [← hr.allow] at hallow
  rw [← hr.deny] at hdeny
  simp only [Bool.false_eq_true, and_false, or_false] at hallow
  simp only [and_true] at hdeny
  rw [← hallow, ← hdeny, hostPass, Record.equals, Record.equals, hr.order]
  cases order with
  | allowDeny => 
    cases allowed (r.items "deny".toList) host ip true with
    | true => simp [Order.value]
    | false => simp [Order.value]
  | mutualFailure => simp [Order.value]

/-- A request is let in by one of the passes. -/
theorem letIn_iff {env : Env} {access : Access} {id : Request} {r : Record} {order : Order}
    {allow deny : List Rule} (hgov : Governs access id r) (hr : HostRecord r order allow deny) :
    LetIn env access id ↔ hostPass r id.remoteaddr id.remoteaddr = true ∨
      hostPass r (hostName env id.remoteaddr) id.remoteaddr = true := by
  obtain ⟨method, hmethod, hrecord⟩ := hgov.record
  have hrules : ((r.items "allow".toList).isNone && (r.items "deny".toList).isNone) = false := by
    rw [hr.allow, hr.deny, setOf, setOf]
    rcases hr.given with h | h
    · rw [if_neg h]
      rfl
    · rw [if_neg h, Option.isNone_some, Bool.and_false]
  have husers : checkUser env access r id = some (.ok, .unchanged) := by
    rw [checkUser, hr.noUsers.1, hr.noUsers.2.1, hr.noUsers.2.2]
    rfl
  have hok : hostOk env r id.remoteaddr = (hostPass r id.remoteaddr id.remoteaddr ||
      hostPass r (hostName env id.remoteaddr) id.remoteaddr) := by
    rw [hostOk, hrules]
    rfl
  have hone : r.equals "all".toList 1 = true := by
    rw [Record.equals, hr.all]
    rfl
  have hany : r.equals "all".toList (-1) = false := by
    rw [Record.equals, hr.all]
    rfl
  rw [LetIn, htaccess, hgov.stays]
  dsimp only
  rw [verify, hmethod]
  dsimp only
  rw [hrecord, Option.getD_some, checkRecord, hone, hany, Bool.and_true, Bool.and_false, husers,
    hok, ← Bool.or_eq_true]
  cases hostPass r id.remoteaddr id.remoteaddr ||
      hostPass r (hostName env id.remoteaddr) id.remoteaddr with
  | true => exact iff_of_true rfl rfl
  | false =>
    refine iff_of_false ?_ nofun
    show ¬ (if hostName env id.remoteaddr = id.remoteaddr then _ else _) = _
    split
    · nofun
    · nofun

/-- **Host rules**, for a client with a name. -/
theorem hosts_iff {env : Env} {access : Access} {id : Request} {r : Record} {order : Order}
    {allow deny : List Rule} (hgov : Governs access id r) (hr : HostRecord r order allow deny)
    (hip : IsAddress id.remoteaddr) (hname : hostName env id.remoteaddr ≠ id.remoteaddr) :
    (LetIn env access id ↔ Listed (hostName env id.remoteaddr) id.remoteaddr allow ∧
      ¬ Listed (hostName env id.remoteaddr) id.remoteaddr deny) ↔
    Settles order allow deny (hostName env id.remoteaddr) id.remoteaddr := by
  have hlower : lowerCase id.remoteaddr = id.remoteaddr := lowerCase_octets hip.octets.1
  have hfirst := hostPass_iff hr id.remoteaddr hip
  have hsecond := hostPass_iff hr (hostName env id.remoteaddr) hip
  rw [letIn_iff hgov hr, hfirst, hsecond, hlower]
  generalize hostName env id.remoteaddr = host at *
  generalize id.remoteaddr = ip at *
  have hself : (Listed ip ip deny ∨ StrayIn (labels ip) deny) ∨ (deny ≠ [] ∧ ip = ip) ↔
      deny ≠ [] := by
    constructor
    · intro hor
      obtain (h | h) | h := hor
      · exact h.ne_nil
      · exact h.ne_nil
      · exact h.1
    · intro h
      exact Or.inr ⟨h, rfl⟩
  have hdeny : Listed host ip deny ∨ StrayIn (labels (lowerCase host)) deny → deny ≠ [] := by
    intro hor
    obtain h | h := hor
    · exact h.ne_nil
    · exact h.ne_nil
  rw [hself, iff_false_intro hname, and_false, or_false]
  unfold Settles
  dsimp only
  generalize (Listed ip ip allow ∨ StrayIn (labels ip) allow) = alone
  generalize Listed host ip allow = a
  generalize StrayIn (labels (lowerCase host)) allow = sa
  generalize Listed host ip deny = d at *
  generalize StrayIn (labels (lowerCase host)) deny = sd at *
  clear hfirst hsecond hself hgov hr hip hname hlower
  -- What is left is about the five facts and an empty deny set, with `hdeny` between them.
  cases order with
  | allowDeny =>
    simp only [reduceCtorEq, iff_false]
    grind
  | mutualFailure =>
    simp only [iff_true]
    grind

/-! ## A client that is denied -/

/-- All clients have the same name. -/
def oneNameEnv : Env where
  quickIpToHost _ := some "pc.dom".toList
  blockingIpToHost _ := none
  readBytes _ := none
  crypt _ _ := false
  getgrnam _ := none
  loginGroup := none

/-- Everybody may come in, but nobody from 10. -/
def allButTen : Record :=
  (((∅ : Record).insert "allow".toList (.set ["all".toList])).insert "deny".toList
    (.set ["10".toList])).insert "order".toList (.int (-1)) |>.insert "all".toList (.int 1)

def accessOf (method : Str) (r : Record) : Access where
  records := (∅ : Mapping Str Record).insert method r
  redirect := none
  authname := none
  authuserfile := none
  authgroupfile := none

def fromTen : Request where
  method := "GET".toList
  notQuery := "/".toList
  remoteaddr := "10.0.0.1".toList
  realauth := none
  auth := none

theorem ten_isNumber : IsNumber "10".toList :=
  ⟨by decide, by decide, fun p hp => ⟨10, by decide, List.mem_singleton.mp hp⟩⟩

theorem fromTen_isAddress : IsAddress fromTen.remoteaddr := by
  refine ⟨["10".toList, "0".toList, "0".toList, "1".toList], rfl, fun p hp => ?_, rfl⟩
  simp only [List.mem_cons, List.not_mem_nil, or_false] at hp
  obtain rfl | rfl | rfl | rfl := hp
  · exact ⟨10, by decide, rfl⟩
  · exact ⟨0, by decide, rfl⟩
  · exact ⟨0, by decide, rfl⟩
  · exact ⟨1, by decide, rfl⟩

theorem allButTen_hostRecord :
    HostRecord allButTen .mutualFailure [.all] [.number "10".toList ten_isNumber] where
  given := Or.inl (List.cons_ne_nil _ _)
  allow := rfl
  deny := rfl
  order := rfl
  all := rfl
  noUsers := ⟨rfl, rfl, rfl⟩

theorem hosts_iff_fromTen :
    (LetIn oneNameEnv (accessOf "get".toList allButTen) fromTen ↔
      Listed "pc.dom".toList fromTen.remoteaddr [.all] ∧
        ¬ Listed "pc.dom".toList fromTen.remoteaddr [.number "10".toList ten_isNumber]) ↔
    Settles .mutualFailure [.all] [.number "10".toList ten_isNumber] "pc.dom".toList
      fromTen.remoteaddr :=
  @hosts_iff oneNameEnv (accessOf "get".toList allButTen) fromTen _ _ _ _
    ⟨rfl, "get".toList, rfl, rfl⟩ allButTen_hostRecord fromTen_isAddress (by decide)

/-- A client is let in whose number is denied. -/
theorem denied_let_in :
    ¬ (LetIn oneNameEnv (accessOf "get".toList allButTen) fromTen ↔
      Listed "pc.dom".toList fromTen.remoteaddr [.all] ∧
        ¬ Listed "pc.dom".toList fromTen.remoteaddr [.number "10".toList ten_isNumber]) := by
  intro h
  have hin : LetIn oneNameEnv (accessOf "get".toList allButTen) fromTen := by
    unfold LetIn
    decide
  refine (h.mp hin).2 ⟨_, List.mem_cons_self, ?_⟩
  show octets "10".toList <+: octets fromTen.remoteaddr
  decide

end Caudium.Htaccess
