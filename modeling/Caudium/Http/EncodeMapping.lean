import Caudium.Lib.Replace
import Caudium.Lib.Value

/-!
# Encoding attributes (`caudium.c`)

`_make_tag_attributes` and the two `encode_mapping` functions of the module write names and values
with the characters that are unsafe in HTML or in XML replaced by entities. Both encodings are a
table of unsafe strings beside a table of entities; a scan for the first characters of the unsafe
strings comes before the replacing.

In the HTML tables the entities of '<' and '>' stand in each other's place, and the last unsafe
string of the XML table is a backslash and a zero where the entity denotes a NUL. So a text is read
back as it was exactly when it has none of these (`encodesFaithfully_iff`); what is written is
clean in any case.
-/

namespace Caudium.Http

open Lib (Str Mapping Value replaceAll ruleAt NoRule)

/-- `ENCODE_TYPE_HTML` and `ENCODE_TYPE_XML`. -/
inductive Encoding where
  | html
  | xml
  deriving DecidableEq, Repr

namespace Encoding

/-- `html_unsafechars` and `xml_unsafechars`. -/
def unsafeChars : Encoding → List Str
  | html => [['"'], ['<'], ['>'], ['&']]
  | xml => [['<'], ['>'], ['&'], ['"'], ['\''], ['\\', '0']]

/-- `html_safeentities` and `xml_safeentities`. -/
def safeEntities : Encoding → List Str
  | html =>
    [['&', 'q', 'u', 'o', 't', ';'], ['&', 'g', 't', ';'], ['&', 'l', 't', ';'],
      ['&', 'a', 'm', 'p', ';']]
  | xml =>
    [['&', 'l', 't', ';'], ['&', 'g', 't', ';'], ['&', 'a', 'm', 'p', ';'],
      ['&', '#', '3', '4', ';'], ['&', '#', '3', '9', ';'], ['&', '#', '0', ';']]

/-- What `replace` is called with. -/
def rules (enc : Encoding) : List (Str × Str) := enc.unsafeChars.zip enc.safeEntities

end Encoding

/-- `_encode_pike_string`, on a string of 8-bit characters. -/
def encodePikeString (enc : Encoding) (ps : Str) : Str :=
  let doReplace := enc.unsafeChars.any fun u => ps.contains (u.headD '\x00')
  if doReplace then replaceAll enc.rules ps else ps

/-- One turn of the loop of `encode_mapping`. -/
def encodeEntry (enc : Encoding) (result : Mapping Str Str) : Value × Value → Mapping Str Str
  | (.str ind, .str val) => result.insert (encodePikeString enc ind) (encodePikeString enc val)
  | _ => result

/-- `encode_mapping`, on the entries of the mapping in the order of its loop. -/
def encodeMapping (mapping2encode : List (Value × Value)) (enc : Encoding) : Mapping Str Str :=
  mapping2encode.foldl (encodeEntry enc) ∅

/-! ## Reading back -/

/-- The entities and the characters they denote. -/
def entities : List (Str × Str) :=
  [(['&', 'l', 't', ';'], ['<']), (['&', 'g', 't', ';'], ['>']),
    (['&', 'a', 'm', 'p', ';'], ['&']), (['&', 'q', 'u', 'o', 't', ';'], ['"']),
    (['&', '#', '3', '4', ';'], ['"']), (['&', '#', '3', '9', ';'], ['\'']),
    (['&', '#', '0', ';'], ['\x00'])]

/-- The entities of a text replaced by what they denote. -/
def unescape (s : Str) : Str := replaceAll entities s

/-- No '<', '>' or '"', and every '&' begins an entity. -/
structure Clean (s : Str) : Prop where
  lt : '<' ∉ s
  gt : '>' ∉ s
  quote : '"' ∉ s
  amp : ∀ pre post, s = pre ++ '&' :: post → ∃ e ∈ entities, e.1 <+: '&' :: post

/-- What is asked of an encoding and a string. -/
structure EncodesFaithfully (enc : Encoding) (s : Str) : Prop where
  back : unescape (encodePikeString enc s) = s
  clean : Clean (encodePikeString enc s)

/-- The scan only spares the call of `replace`. -/
theorem encodePikeString_eq (enc : Encoding) (s : Str) :
    encodePikeString enc s = replaceAll enc.rules s := by
  unfold encodePikeString
  dsimp only
  split
  next => rfl
  next hno =>
    refine (Lib.replaceAll_of_noRule fun c hc r hr => ?_).symm
    have hmem : r.1 ∈ enc.unsafeChars := (List.of_mem_zip hr).1
    have hne : ∀ u ∈ enc.unsafeChars, u ≠ [] := by
      cases enc with
      | html => decide
      | xml => decide
    refine ⟨hne r.1 hmem, fun hhead => hno (List.any_eq_true.mpr ⟨r.1, hmem, ?_⟩)⟩
    rw [List.headD_eq_head?_getD, hhead]
    exact List.contains_iff_mem.mpr hc

theorem rules_html : Encoding.html.rules =
    [(['"'], ['&', 'q', 'u', 'o', 't', ';']), (['<'], ['&', 'g', 't', ';']),
      (['>'], ['&', 'l', 't', ';']), (['&'], ['&', 'a', 'm', 'p', ';'])] := rfl

theorem rules_xml : Encoding.xml.rules =
    [(['<'], ['&', 'l', 't', ';']), (['>'], ['&', 'g', 't', ';']),
      (['&'], ['&', 'a', 'm', 'p', ';']), (['"'], ['&', '#', '3', '4', ';']),
      (['\''], ['&', '#', '3', '9', ';']), (['\\', '0'], ['&', '#', '0', ';'])] := rfl

/-- A rule fits where its string stands, whatever follows. -/
theorem ruleAt_rules {enc : Encoding} {r : Str × Str} (hr : r ∈ enc.rules) (s : Str) :
    ruleAt enc.rules (r.1 ++ s) = some r := by
  cases enc with
  | html =>
    simp only [rules_html, List.mem_cons, List.not_mem_nil, or_false] at hr
    rcases hr with rfl | rfl | rfl | rfl
    all_goals rfl
  | xml =>
    simp only [rules_xml, List.mem_cons, List.not_mem_nil, or_false] at hr
    rcases hr with rfl | rfl | rfl | rfl | rfl | rfl
    all_goals rfl

theorem ruleAt_entities {e : Str × Str} (he : e ∈ entities) (s : Str) :
    ruleAt entities (e.1 ++ s) = some e := by
  simp only [entities, List.mem_cons, List.not_mem_nil, or_false] at he
  rcases he with rfl | rfl | rfl | rfl | rfl | rfl | rfl
  all_goals rfl

/-- An entity is read as the character it denotes. -/
theorem unescape_entity {e : Str × Str} (he : e ∈ entities) (s : Str) :
    unescape (e.1 ++ s) = e.2 ++ unescape s := by
  have hne : ∀ e ∈ entities, e.1 ≠ [] := by decide
  exact Lib.replaceAll_rule (ruleAt_entities he s) (hne e he)

theorem unescape_keep {c : Char} (hc : c ≠ '&') (s : Str) :
    unescape (c :: s) = c :: unescape s := by
  refine Lib.replaceAll_keep (Lib.ruleAt_none ?_ s)
  have hamp : ∀ e ∈ entities, e.1 ≠ [] ∧ e.1.head? = some '&' := by decide
  intro e he
  refine ⟨(hamp e he).1, fun hhead => hc ?_⟩
  rw [(hamp e he).2] at hhead
  exact (Option.some.inj hhead).symm

/-- Every entity of the tables is one of the list. -/
theorem entity_of_rule {enc : Encoding} {r : Str × Str} (hr : r ∈ enc.rules) :
    ∃ e ∈ entities, e.1 = r.2 := by
  have hall : ∀ r ∈ enc.rules, ∃ e ∈ entities, e.1 = r.2 := by
    cases enc with
    | html => decide
    | xml => decide
  exact hall r hr

/-! ## What is written is clean -/

theorem Clean.nil : Clean [] where
  lt := List.not_mem_nil
  gt := List.not_mem_nil
  quote := List.not_mem_nil
  amp pre post h := by
    have hlen := congrArg List.length h
    rw [List.length_append] at hlen
    exact absurd hlen (by simp)

/-- In front of a clean text: any character but the four, and '&' where it begins an entity. -/
theorem Clean.cons {c : Char} {s : Str} (h : Clean s) (hlt : c ≠ '<') (hgt : c ≠ '>')
    (hquote : c ≠ '"') (hamp : c = '&' → ∃ e ∈ entities, e.1 <+: '&' :: s) : Clean (c :: s) where
  lt hmem := (List.mem_cons.mp hmem).elim (fun e => hlt e.symm) h.lt
  gt hmem := (List.mem_cons.mp hmem).elim (fun e => hgt e.symm) h.gt
  quote hmem := (List.mem_cons.mp hmem).elim (fun e => hquote e.symm) h.quote
  amp pre post he := by
    cases pre with
    | nil =>
      obtain ⟨hc, hpost⟩ := List.cons.inj he
      rw [← hpost]
      exact hamp hc
    | cons d pre => exact h.amp pre post (List.cons.inj he).2

theorem Clean.append {b s : Str} (h : Clean s)
    (hb : ∀ c ∈ b, c ≠ '<' ∧ c ≠ '>' ∧ c ≠ '"' ∧ c ≠ '&') : Clean (b ++ s) := by
  induction b with
  | nil => exact h
  | cons c b ih =>
    rw [List.forall_mem_cons] at hb
    obtain ⟨⟨hlt, hgt, hquote, hamp⟩, hb⟩ := hb
    exact (ih hb).cons hlt hgt hquote fun he => absurd he hamp

theorem Clean.entity {e : Str × Str} (he : e ∈ entities) {s : Str} (h : Clean s) :
    Clean (e.1 ++ s) := by
  have hall : ∀ e ∈ entities, ∃ b ∈ entities.map (·.1.tail), e.1 = '&' :: b ∧
      ∀ c ∈ b, c ≠ '<' ∧ c ≠ '>' ∧ c ≠ '"' ∧ c ≠ '&' := by decide
  obtain ⟨b, -, hb, hplain⟩ := hall e he
  have hprefix : e.1 <+: e.1 ++ s := List.prefix_append _ _
  rw [hb, List.cons_append] at hprefix ⊢
  refine (h.append hplain).cons (by decide) (by decide) (by decide) fun _ => ⟨e, he, ?_⟩
  rw [hb]
  exact hprefix

theorem clean_encodePikeString (enc : Encoding) (s : Str) : Clean (encodePikeString enc s) := by
  rw [encodePikeString_eq]
  refine Lib.replaceAll_induct Clean.nil (fun r hr t ht => ?_) (fun c hc t ht => ?_) s
  · obtain ⟨e, he, heq⟩ := entity_of_rule hr
    rw [← heq]
    exact ht.entity he
  · have hfour : ∀ d ∈ ['<', '>', '"', '&'], ∃ r ∈ enc.rules, r.1 = [d] := by
      cases enc with
      | html => decide
      | xml => decide
    have hother : ∀ d ∈ ['<', '>', '"', '&'], c ≠ d := by
      intro d hd he
      obtain ⟨r, hr, hrd⟩ := hfour d hd
      exact hc r hr (hrd.trans (congrArg ([·]) he.symm))
    exact ht.cons (hother '<' (by decide)) (hother '>' (by decide)) (hother '"' (by decide))
      fun he => absurd he (hother '&' (by decide))

/-! ## What is read back -/

/-- What is read back of what an encoding writes. -/
def readBack (enc : Encoding) (s : Str) : Str := unescape (encodePikeString enc s)

theorem readBack_nil (enc : Encoding) : readBack enc [] = [] := by
  rw [readBack, encodePikeString_eq]
  rfl

/-- A string of the table is read back as what its entity denotes. -/
theorem readBack_rule {enc : Encoding} {r e : Str × Str} (hr : r ∈ enc.rules) (he : e ∈ entities)
    (heq : e.1 = r.2) (s : Str) : readBack enc (r.1 ++ s) = e.2 ++ readBack enc s := by
  have hne : ∀ r ∈ enc.rules, r.1 ≠ [] := by
    cases enc with
    | html => decide
    | xml => decide
  rw [readBack, readBack, encodePikeString_eq, encodePikeString_eq,
    Lib.replaceAll_rule (ruleAt_rules hr s) (hne r hr), ← heq, unescape_entity he]

theorem readBack_keep {enc : Encoding} {c : Char} {s : Str} (h : ruleAt enc.rules (c :: s) = none)
    (hc : c ≠ '&') : readBack enc (c :: s) = c :: readBack enc s := by
  rw [readBack, readBack, encodePikeString_eq, encodePikeString_eq, Lib.replaceAll_keep h,
    unescape_keep hc]

/-- '<' and '>' in each other's place. -/
def swapAngle (c : Char) : Char := if c = '<' then '>' else if c = '>' then '<' else c

/-- In HTML the two angles change places. -/
theorem readBack_html (s : Str) : readBack .html s = s.map swapAngle := by
  induction s with
  | nil => exact readBack_nil .html
  | cons c s ih =>
    rw [List.map_cons, ← ih]
    by_cases hquote : c = '"'
    · subst hquote
      exact @readBack_rule .html (['"'], ['&', 'q', 'u', 'o', 't', ';'])
        (['&', 'q', 'u', 'o', 't', ';'], ['"']) (by decide) (by decide) rfl s
    by_cases hlt : c = '<'
    · subst hlt
      exact @readBack_rule .html (['<'], ['&', 'g', 't', ';']) (['&', 'g', 't', ';'], ['>'])
        (by decide) (by decide) rfl s
    by_cases hgt : c = '>'
    · subst hgt
      exact @readBack_rule .html (['>'], ['&', 'l', 't', ';']) (['&', 'l', 't', ';'], ['<'])
        (by decide) (by decide) rfl s
    by_cases hamp : c = '&'
    · subst hamp
      exact @readBack_rule .html (['&'], ['&', 'a', 'm', 'p', ';'])
        (['&', 'a', 'm', 'p', ';'], ['&']) (by decide) (by decide) rfl s
    -- No unsafe string begins with any other character.
    have hnorule : NoRule Encoding.html.rules c := by
      unfold NoRule
      rw [rules_html]
      simp only [List.forall_mem_cons, List.head?_cons, ne_eq, Option.some.injEq]
      exact ⟨⟨List.cons_ne_nil _ _, Ne.symm hquote⟩, ⟨List.cons_ne_nil _ _, Ne.symm hlt⟩,
        ⟨List.cons_ne_nil _ _, Ne.symm hgt⟩, ⟨List.cons_ne_nil _ _, Ne.symm hamp⟩,
        List.forall_mem_nil _⟩
    rw [readBack_keep (Lib.ruleAt_none hnorule s) hamp, swapAngle, if_neg hlt, if_neg hgt]

/-- The text with a NUL for every backslash and zero. -/
def unslash : Str → Str
  | '\\' :: '0' :: s => '\x00' :: unslash s
  | c :: s => c :: unslash s
  | [] => []

theorem unslash_keep {c : Char} {s : Str} (h : ∀ t, c = '\\' → s = '0' :: t → False) :
    unslash (c :: s) = c :: unslash s :=
  unslash.eq_2 c s h

/-- The last rule of XML needs the zero. -/
theorem ruleAt_backslash {s : Str} (h : ∀ t, s ≠ '0' :: t) :
    ruleAt Encoding.xml.rules ('\\' :: s) = none := by
  refine List.find?_eq_none.mpr ?_
  rw [rules_xml]
  simp only [List.forall_mem_cons, List.isPrefixOf_iff_prefix, List.cons_prefix_cons]
  refine ⟨?_, ?_, ?_, ?_, ?_, ?_, List.forall_mem_nil _⟩
  · exact fun hp => absurd hp.1 (by decide)
  · exact fun hp => absurd hp.1 (by decide)
  · exact fun hp => absurd hp.1 (by decide)
  · exact fun hp => absurd hp.1 (by decide)
  · exact fun hp => absurd hp.1 (by decide)
  · intro hp
    obtain ⟨t, ht⟩ := hp.2
    exact h t ht.symm

/-- In XML a backslash and a zero become a NUL. -/
theorem readBack_xml (s : Str) : readBack .xml s = unslash s := by
  induction s using unslash.induct with
  | case1 s ih =>
    rw [unslash, ← ih]
    exact @readBack_rule .xml (['\\', '0'], ['&', '#', '0', ';'])
      (['&', '#', '0', ';'], ['\x00']) (by decide) (by decide) rfl s
  | case2 c s hno ih =>
    rw [unslash_keep hno, ← ih]
    by_cases hlt : c = '<'
    · subst hlt
      exact @readBack_rule .xml (['<'], ['&', 'l', 't', ';']) (['&', 'l', 't', ';'], ['<'])
        (by decide) (by decide) rfl s
    by_cases hgt : c = '>'
    · subst hgt
      exact @readBack_rule .xml (['>'], ['&', 'g', 't', ';']) (['&', 'g', 't', ';'], ['>'])
        (by decide) (by decide) rfl s
    by_cases hamp : c = '&'
    · subst hamp
      exact @readBack_rule .xml (['&'], ['&', 'a', 'm', 'p', ';'])
        (['&', 'a', 'm', 'p', ';'], ['&']) (by decide) (by decide) rfl s
    by_cases hquote : c = '"'
    · subst hquote
      exact @readBack_rule .xml (['"'], ['&', '#', '3', '4', ';'])
        (['&', '#', '3', '4', ';'], ['"']) (by decide) (by decide) rfl s
    by_cases hapos : c = '\''
    · subst hapos
      exact @readBack_rule .xml (['\''], ['&', '#', '3', '9', ';'])
        (['&', '#', '3', '9', ';'], ['\'']) (by decide) (by decide) rfl s
    -- A backslash that has no zero behind it.
    by_cases hslash : c = '\\'
    · subst hslash
      exact readBack_keep (ruleAt_backslash fun t ht => hno t rfl ht) hamp
    have hnorule : NoRule Encoding.xml.rules c := by
      unfold NoRule
      rw [rules_xml]
      simp only [List.forall_mem_cons, List.head?_cons, ne_eq, Option.some.injEq]
      exact ⟨⟨List.cons_ne_nil _ _, Ne.symm hlt⟩, ⟨List.cons_ne_nil _ _, Ne.symm hgt⟩,
        ⟨List.cons_ne_nil _ _, Ne.symm hamp⟩, ⟨List.cons_ne_nil _ _, Ne.symm hquote⟩,
        ⟨List.cons_ne_nil _ _, Ne.symm hapos⟩, ⟨List.cons_ne_nil _ _, Ne.symm hslash⟩,
        List.forall_mem_nil _⟩
    exact readBack_keep (Lib.ruleAt_none hnorule s) hamp
  | case3 => exact readBack_nil .xml

/-! ## What is read back as it was -/

theorem map_swapAngle_iff (s : Str) : s.map swapAngle = s ↔ '<' ∉ s ∧ '>' ∉ s := by
  induction s with
  | nil => exact iff_of_true rfl ⟨List.not_mem_nil, List.not_mem_nil⟩
  | cons c s ih =>
    have hc : swapAngle c = c ↔ '<' ≠ c ∧ '>' ≠ c := by
      unfold swapAngle
      split
      next h => exact iff_of_false (by rw [h]; decide) fun hno => hno.1 h.symm
      next hlt =>
        split
        next h => exact iff_of_false (by rw [h]; decide) fun hno => hno.2 h.symm
        next hgt => exact iff_of_true rfl ⟨Ne.symm hlt, Ne.symm hgt⟩
    rw [List.map_cons, List.cons_eq_cons, hc, ih, List.mem_cons, List.mem_cons, not_or, not_or]
    exact and_and_and_comm

/-- A text without the two characters is kept, one with them becomes shorter. -/
theorem unslash_cases (s : Str) :
    unslash s = s ∧ ¬['\\', '0'] <:+: s ∨
      (unslash s).length < s.length ∧ ['\\', '0'] <:+: s := by
  induction s using unslash.induct with
  | case1 s ih =>
    right
    refine ⟨?_, ⟨[], s, rfl⟩⟩
    have hle : (unslash s).length ≤ s.length := by
      rcases ih with ⟨he, -⟩ | ⟨hlt, -⟩
      · rw [he]
      · exact Nat.le_of_lt hlt
    rw [unslash, List.length_cons, List.length_cons, List.length_cons]
    omega
  | case2 c s hno ih =>
    have hinfix : ['\\', '0'] <:+: c :: s ↔ ['\\', '0'] <:+: s := by
      rw [List.infix_cons_iff]
      refine or_iff_right fun hp => ?_
      obtain ⟨hc, t, ht⟩ := List.cons_prefix_cons.mp hp
      exact hno t hc.symm ht.symm
    rw [unslash_keep hno, hinfix, List.length_cons, List.length_cons]
    refine ih.imp (fun h => ⟨congrArg _ h.1, h.2⟩) (fun h => ⟨Nat.succ_lt_succ h.1, h.2⟩)
  | case3 => exact Or.inl ⟨rfl, by decide⟩

theorem unslash_iff (s : Str) : unslash s = s ↔ ¬['\\', '0'] <:+: s := by
  rcases unslash_cases s with ⟨he, hno⟩ | ⟨hlt, hyes⟩
  · exact iff_of_true he hno
  · refine iff_of_false (fun he => ?_) (not_not_intro hyes)
    rw [he] at hlt
    exact Nat.lt_irrefl _ hlt

/-- **The encodings are faithful** for the texts without an angle, in HTML, and without a backslash
followed by a zero, in XML. -/
theorem encodesFaithfully_iff (enc : Encoding) (s : Str) :
    EncodesFaithfully enc s ↔ match enc with
      | .html => '<' ∉ s ∧ '>' ∉ s
      | .xml => ¬['\\', '0'] <:+: s := by
  have hback : EncodesFaithfully enc s ↔ readBack enc s = s :=
    ⟨fun h => h.back, fun h => ⟨h, clean_encodePikeString enc s⟩⟩
  rw [hback]
  cases enc with
  | html => rw [readBack_html, map_swapAngle_iff]
  | xml => rw [readBack_xml, unslash_iff]

theorem angles_swapped :
    ¬ ∀ (enc : Encoding) (s : Str), '\x00' ∉ s → EncodesFaithfully enc s := by
  intro h
  exact absurd (h .html ['<'] (by decide)).back (by decide)

/-! ## The mapping -/

/-- Names and values of the encoded mapping are encoded names and values, each of an entry whose
name and value are strings. -/
theorem encodeMapping_lookup {m : List (Value × Value)} {enc : Encoding} {k v : Str}
    (h : (encodeMapping m enc).lookup k = some v) :
    ∃ ind val, (.str ind, .str val) ∈ m ∧ k = encodePikeString enc ind ∧
      v = encodePikeString enc val := by
  unfold encodeMapping at h
  induction m using List.reverseRecOn with
  | nil => cases h
  | append_singleton m x ih =>
    rw [List.foldl_append, List.foldl_cons, List.foldl_nil] at h
    have hrest : (m.foldl (encodeEntry enc) ∅).lookup k = some v → ∃ ind val,
        ((.str ind, .str val) : Value × Value) ∈ m ++ [x] ∧ k = encodePikeString enc ind ∧
          v = encodePikeString enc val := by
      intro h
      obtain ⟨ind, val, hmem, hk⟩ := ih h
      exact ⟨ind, val, List.mem_append_left _ hmem, hk⟩
    unfold encodeEntry at h
    split at h
    next ind val =>
      rw [Mapping.lookup_insert_ite] at h
      split at h
      next hk =>
        exact ⟨ind, val, List.mem_append_right _ (List.mem_singleton_self _), hk,
          (Option.some.inj h).symm⟩
      next => exact hrest h
    next => exact hrest h

end Caudium.Http
