import Caudium.Http.ParseHeaders
import Mathlib.Data.List.TakeWhile

/-!
# Encoding for URLs (`do_encode_stuff` and its callers, caudium.c)

The encoders go through the C string of their argument, which ends at its first NUL, and write
`%` and two hexadecimal digits for each character that is not safe; what is safe differs from
one to the next. When nothing is to be encoded they return the argument as it came, whatever
stands behind the NUL. `url_decode` is in `ParseHeaders`; its callers here differ in what they
make of '+'.

Lengths are taken to fit an `int`, and the scratchpad to be large enough.
-/

namespace Caudium.Http

open Lib (Str)

/-- `hex_chars`. -/
def hexChars : Str :=
  ['0', '1', '2', '3', '4', '5', '6', '7', '8', '9', 'A', 'B', 'C', 'D', 'E', 'F']

/-- A turn of the second loop of `do_encode_stuff`. -/
def encodeChar (safe : Char → Bool) (c : Char) : Str :=
  if safe c then [c]
  else ['%', hexChars.getD (c.toNat >>> 4) '\x00', hexChars.getD (c.toNat &&& 15) '\x00']

/-- `do_encode_stuff`; `none` is the null pointer, for a string that needs no encoding. -/
def doEncodeStuff (s : Str) (safe : Char → Bool) : Option Str :=
  let needed := (cString s).countP fun c => !safe c
  if needed = 0 then none
  else
    let out := (cString s).flatMap (encodeChar safe) ++ ['\x00']
    -- `make_shared_string` reads up to the NUL
    some (cString out)

/-- `is_safe`. -/
def isSafe (c : Char) : Bool :=
  decide ('0' ≤ c ∧ c ≤ '9' ∨ 'A' ≤ c ∧ c ≤ 'Z' ∨ 'a' ≤ c ∧ c ≤ 'z')

/-- `is_http_safe`. -/
def isHttpSafe (c : Char) : Bool :=
  decide (c ∉ ['\x00', ' ', '\t', '\n', '\r', '%', '\'', '"', '<', '>', '@'])

/-- `is_cookie_safe`. -/
def isCookieSafe (c : Char) : Bool := decide (c ∉ ['=', ',', ';', '%', ':'])

/-- `is_url_safe`. -/
def isUrlSafe (c : Char) : Bool :=
  isSafe c || decide (c ∈ ['&', '?', '=', '/', ':', ';', '$', ',', '.', '+', '@'])

/-- What the encoders have in common: the argument is returned when `do_encode_stuff` makes
nothing of it. `none` when it is not a string of 8-bit characters. -/
def encodeWith (safe : Char → Bool) (m : Str) : Option Str :=
  if narrow m then some ((doEncodeStuff m safe).getD m) else none

/-- `http_encode`. -/
def httpEncode (m : Str) : Option Str := encodeWith isSafe m

/-- `http_encode_string`. -/
def httpEncodeString (m : Str) : Option Str := encodeWith isHttpSafe m

/-- `http_encode_cookie`. -/
def httpEncodeCookie (m : Str) : Option Str := encodeWith isCookieSafe m

/-- `http_encode_url`. -/
def httpEncodeUrl (m : Str) : Option Str := encodeWith isUrlSafe m

/-- `http_decode`. -/
def httpDecode (m : Str) : Option Str := if narrow m then some (urlDecode m false 1) else none

/-- `http_decode_url`. -/
def httpDecodeUrl (m : Str) : Option Str := if narrow m then some (urlDecode m false 2) else none

/-! ## One character -/

theorem narrow_iff (s : Str) : narrow s = true ↔ ∀ c ∈ s, c.toNat < 256 := by
  simp [narrow]

theorem hexValue_hexChars {n : Nat} (h : n < 16) : hexValue (hexChars.getD n '\x00') = n := by
  have hall : ∀ k < 16, hexValue (hexChars.getD k '\x00') = k := by decide
  exact hall n h

theorem hexChars_mem {n : Nat} (h : n < 16) : hexChars.getD n '\x00' ∈ hexChars := by
  have hall : ∀ k < 16, hexChars.getD k '\x00' ∈ hexChars := by decide
  exact hall n h

theorem high_lt {n : Nat} (h : n < 256) : n >>> 4 < 16 := by
  rw [Nat.shiftRight_eq_div_pow]
  omega

theorem low_lt (n : Nat) : n &&& 15 < 16 := Nat.lt_succ_of_le Nat.and_le_right

/-- A number below 256 is made of its two digits. -/
theorem high_or_low (n : Nat) : (n >>> 4) <<< 4 ||| (n &&& 15) = n := by
  rw [← Nat.shiftLeft_add_eq_or_of_lt (i := 4) (low_lt n), Nat.shiftRight_eq_div_pow,
    Nat.shiftLeft_eq, show (15 : Nat) = 2 ^ 4 - 1 from rfl, Nat.and_two_pow_sub_one_eq_mod]
  exact Nat.div_add_mod' n (2 ^ 4)

theorem encodeChar_safe {safe : Char → Bool} {c : Char} (h : safe c = true) :
    encodeChar safe c = [c] := if_pos h

theorem encodeChar_digits {safe : Char → Bool} {c : Char} (h : safe c = false) :
    encodeChar safe c =
      ['%', hexChars.getD (c.toNat >>> 4) '\x00', hexChars.getD (c.toNat &&& 15) '\x00'] := by
  rw [encodeChar, h]
  rfl

/-- What `url_decode` makes of a character other than '%'. -/
def decodePlain (simple : Nat) (c : Char) : Char := if c = '+' ∧ simple ≠ 1 then ' ' else c

theorem urlDecodeFrom_cons {c : Char} (hc : c ≠ '%') (simple : Nat) (rest : Str) :
    urlDecodeFrom simple (c :: rest) = decodePlain simple c :: urlDecodeFrom simple rest := by
  by_cases hplus : c = '+'
  · subst hplus
    show (if simple = 1 then '+' else ' ') :: _ = _
    rw [decodePlain]
    by_cases hsimple : simple = 1
    · rw [if_pos hsimple, if_neg fun h => h.2 hsimple]
    · rw [if_neg hsimple, if_pos ⟨rfl, hsimple⟩]
  · rw [decodePlain, if_neg fun h => hplus h.1]
    rw [urlDecodeFrom]
    · exact fun _ _ _ h _ => hc h
    · exact fun h => hc h
    · exact fun h => hplus h

/-- Two digits that were written for a character are read as that character. -/
theorem urlDecodeFrom_digits {c : Char} (hc : c.toNat < 256) (simple : Nat) (rest : Str) :
    urlDecodeFrom simple ('%' :: hexChars.getD (c.toNat >>> 4) '\x00' ::
      hexChars.getD (c.toNat &&& 15) '\x00' :: rest) = c :: urlDecodeFrom simple rest := by
  rw [urlDecodeFrom, hexValue_hexChars (high_lt hc), hexValue_hexChars (low_lt _), high_or_low,
    Char.ofNat_toNat]

/-- What comes back of a character that was encoded. -/
def decoded (safe : Char → Bool) (simple : Nat) (c : Char) : Char :=
  if safe c then decodePlain simple c else c

theorem urlDecodeFrom_encodeChar {safe : Char → Bool} (hpercent : safe '%' = false) {c : Char}
    (hc : c.toNat < 256) (simple : Nat) (rest : Str) :
    urlDecodeFrom simple (encodeChar safe c ++ rest) =
      decoded safe simple c :: urlDecodeFrom simple rest := by
  rw [decoded]
  cases hsafe : safe c with
  | true =>
    have hne : c ≠ '%' := by
      intro h
      subst h
      rw [hsafe] at hpercent
      cases hpercent
    rw [encodeChar_safe hsafe, if_pos rfl]
    exact urlDecodeFrom_cons hne simple rest
  | false =>
    rw [encodeChar_digits hsafe, if_neg (by decide)]
    exact urlDecodeFrom_digits hc simple rest

/-! ## Strings -/

theorem urlDecodeFrom_encode {safe : Char → Bool} (hpercent : safe '%' = false) (simple : Nat) :
    ∀ {s : Str}, (∀ c ∈ s, c.toNat < 256) →
      urlDecodeFrom simple (s.flatMap (encodeChar safe)) = s.map (decoded safe simple)
  | [], _ => rfl
  | c :: s, h => by
    rw [List.flatMap_cons, urlDecodeFrom_encodeChar hpercent (h c List.mem_cons_self),
      urlDecodeFrom_encode hpercent simple fun x hx => h x (List.mem_cons_of_mem c hx)]
    rfl

theorem cString_append_nul {s : Str} (h : '\x00' ∉ s) (rest : Str) :
    cString (s ++ '\x00' :: rest) = s := by
  unfold cString
  rw [List.takeWhile_append_of_pos]
  · rw [List.takeWhile_cons_of_neg (by decide), List.append_nil]
  · intro c hc
    refine decide_eq_true ?_
    intro heq
    subst heq
    exact h hc

theorem cString_self {s : Str} (h : '\x00' ∉ s) : cString s = s := by
  refine List.takeWhile_eq_self_iff.mpr fun c hc => decide_eq_true ?_
  intro heq
  subst heq
  exact h hc

theorem nul_notMem_cString (s : Str) : '\x00' ∉ cString s := by
  intro h
  have hne := List.mem_takeWhile_imp h
  exact absurd hne (by decide)

theorem mem_of_mem_cString {s : Str} {c : Char} (h : c ∈ cString s) : c ∈ s :=
  (List.takeWhile_sublist _).mem h

/-- The encoded text has only safe characters, '%' and digits. -/
theorem mem_encode {safe : Char → Bool} {s : Str} (hs : ∀ c ∈ s, c.toNat < 256) {c : Char}
    (h : c ∈ s.flatMap (encodeChar safe)) :
    (c ∈ s ∧ safe c = true) ∨ c = '%' ∨ c ∈ hexChars := by
  obtain ⟨x, hx, hc⟩ := List.mem_flatMap.mp h
  cases hsafe : safe x with
  | true =>
    rw [encodeChar_safe hsafe, List.mem_singleton] at hc
    subst hc
    exact Or.inl ⟨hx, hsafe⟩
  | false =>
    rw [encodeChar_digits hsafe] at hc
    rcases List.mem_cons.mp hc with rfl | hc
    · exact Or.inr (Or.inl rfl)
    · rcases List.mem_cons.mp hc with rfl | hc
      · exact Or.inr (Or.inr (hexChars_mem (high_lt (hs x hx))))
      · rw [List.mem_singleton] at hc
        subst hc
        exact Or.inr (Or.inr (hexChars_mem (low_lt _)))

theorem nul_notMem_encode {safe : Char → Bool} {s : Str} (hs : ∀ c ∈ s, c.toNat < 256)
    (hnul : '\x00' ∉ s) : '\x00' ∉ s.flatMap (encodeChar safe) := by
  intro h
  rcases mem_encode hs h with ⟨hmem, -⟩ | h | h
  · exact hnul hmem
  · exact absurd h (by decide)
  · exact absurd h (by decide)

theorem narrow_encode {safe : Char → Bool} {s : Str} (hs : ∀ c ∈ s, c.toNat < 256) :
    narrow (s.flatMap (encodeChar safe)) = true := by
  refine (narrow_iff _).mpr fun c hc => ?_
  rcases mem_encode hs hc with ⟨hmem, -⟩ | rfl | h
  · exact hs c hmem
  · decide
  · have hall : ∀ x ∈ hexChars, x.toNat < 256 := by decide
    exact hall c h

/-- An argument whose C string is safe is returned as it came. -/
theorem doEncodeStuff_safe {safe : Char → Bool} {s : Str} (h : ∀ c ∈ cString s, safe c = true) :
    doEncodeStuff s safe = none := by
  have hzero : ((cString s).countP fun c => !safe c) = 0 := by
    refine List.countP_eq_zero.mpr fun c hc hunsafe => ?_
    rw [h c hc] at hunsafe
    cases hunsafe
  exact if_pos hzero

theorem doEncodeStuff_encode {safe : Char → Bool} {s : Str} (hs : ∀ c ∈ s, c.toNat < 256)
    (h : ¬ ∀ c ∈ cString s, safe c = true) :
    doEncodeStuff s safe = some ((cString s).flatMap (encodeChar safe)) := by
  have hpos : ((cString s).countP fun c => !safe c) ≠ 0 := by
    intro hzero
    refine h fun c hc => ?_
    have hsafe := List.countP_eq_zero.mp hzero c hc
    rwa [Bool.not_eq_true', Bool.not_eq_false] at hsafe
  have hnul : '\x00' ∉ (cString s).flatMap (encodeChar safe) :=
    nul_notMem_encode (fun c hc => hs c (mem_of_mem_cString hc)) (nul_notMem_cString s)
  rw [doEncodeStuff]
  dsimp only
  rw [if_neg hpos, cString_append_nul hnul]

/-! ## `http_decode` and `http_decode_url` -/

theorem encodeWith_eq {safe : Char → Bool} {s : Str} (hs : narrow s = true) :
    encodeWith safe s = some ((doEncodeStuff s safe).getD s) := if_pos hs

/-- A string without NUL is encoded character by character. -/
theorem encodeWith_noNul {safe : Char → Bool} {s : Str} (hs : narrow s = true)
    (hnul : '\x00' ∉ s) : encodeWith safe s = some (s.flatMap (encodeChar safe)) := by
  rw [encodeWith_eq hs]
  by_cases hsafe : ∀ c ∈ cString s, safe c = true
  · have hself : s.flatMap (encodeChar safe) = s := by
      rw [cString_self hnul] at hsafe
      rw [List.flatMap_congr fun c hc => encodeChar_safe (hsafe c hc)]
      exact List.flatMap_singleton' s
    rw [doEncodeStuff_safe hsafe, hself]
    rfl
  · rw [doEncodeStuff_encode ((narrow_iff s).mp hs) hsafe, cString_self hnul]
    rfl

theorem httpDecode_eq {m : Str} (hm : narrow m = true) :
    httpDecode m = some (urlDecodeFrom 1 m) := if_pos hm

theorem decodePlain_one (c : Char) : decodePlain 1 c = c := if_neg fun h => h.2 rfl

theorem decoded_one (safe : Char → Bool) (c : Char) : decoded safe 1 c = c := by
  rw [decoded, decodePlain_one, ite_self]

theorem map_decoded_one (safe : Char → Bool) (s : Str) : s.map (decoded safe 1) = s := by
  rw [List.map_congr_left fun c _ => decoded_one safe c, List.map_id']

/-- Without '%' there is nothing to decode. -/
theorem urlDecodeFrom_one {s : Str} (h : '%' ∉ s) : urlDecodeFrom 1 s = s := by
  induction s with
  | nil => rfl
  | cons c s ih =>
    have hne : c ≠ '%' := fun he => h (he ▸ List.mem_cons_self)
    rw [urlDecodeFrom_cons hne, decodePlain_one, ih fun hmem => h (List.mem_cons_of_mem c hmem)]

/-- `encode` does right by `s`, for the predicate `safe`: what it makes of `s` is decoded to
`s`, and is safe but for each '%' that was inserted, that is, when any were. -/
def Faithful (encode : Str → Option Str) (safe : Char → Bool) (s : Str) : Prop :=
  ∃ m, encode s = some m ∧ httpDecode m = some s ∧
    ∀ c ∈ m, safe c = true ∨ (c = '%' ∧ doEncodeStuff s safe ≠ none)

theorem faithful_iff {safe : Char → Bool} (hpercent : safe '%' = false)
    (hdigits : ∀ c ∈ hexChars, safe c = true) {s : Str} (hs : narrow s = true) :
    Faithful (encodeWith safe) safe s ↔ '\x00' ∉ s ∨ ∀ c ∈ s, safe c = true := by
  have hlt := (narrow_iff s).mp hs
  have hltC : ∀ c ∈ cString s, c.toNat < 256 := fun c hc => hlt c (mem_of_mem_cString hc)
  by_cases hsafe : ∀ c ∈ cString s, safe c = true
  · -- `s` comes back as it was, with what stands behind its first NUL
    have henc : encodeWith safe s = some s := by
      rw [encodeWith_eq hs, doEncodeStuff_safe hsafe]
      rfl
    constructor
    · intro hand
      obtain ⟨m, hm, -, honly⟩ := hand
      rw [henc, Option.some.injEq] at hm
      subst hm
      refine Or.inr fun c hc => (honly c hc).resolve_right ?_
      intro hand
      obtain ⟨-, hne⟩ := hand
      exact hne (doEncodeStuff_safe hsafe)
    · intro h
      have hall : ∀ c ∈ s, safe c = true := by
        rcases h with hnul | hall
        · rwa [cString_self hnul] at hsafe
        · exact hall
      refine ⟨s, henc, ?_, fun c hc => Or.inl (hall c hc)⟩
      rw [httpDecode_eq hs, urlDecodeFrom_one]
      intro hmem
      rw [hall _ hmem] at hpercent
      cases hpercent
  · -- the C string of `s` is encoded, and nothing else
    have henc : encodeWith safe s = some ((cString s).flatMap (encodeChar safe)) := by
      rw [encodeWith_eq hs, doEncodeStuff_encode hlt hsafe]
      rfl
    have hdec : httpDecode ((cString s).flatMap (encodeChar safe)) = some (cString s) := by
      rw [httpDecode_eq (narrow_encode hltC), urlDecodeFrom_encode hpercent 1 hltC,
        map_decoded_one]
    constructor
    · intro hand
      obtain ⟨m, hm, hback, -⟩ := hand
      rw [henc, Option.some.injEq] at hm
      subst hm
      rw [hdec, Option.some.injEq] at hback
      rw [← hback]
      exact Or.inl (nul_notMem_cString s)
    · intro h
      have hnul : '\x00' ∉ s := by
        rcases h with hnul | hall
        · exact hnul
        · exact absurd (fun c hc => hall c (mem_of_mem_cString hc)) hsafe
      refine ⟨_, henc, ?_, ?_⟩
      · rw [hdec, cString_self hnul]
      · intro c hc
        rcases mem_encode hltC hc with ⟨-, h⟩ | h | h
        · exact Or.inl h
        · refine Or.inr ⟨h, ?_⟩
          rw [doEncodeStuff_encode hlt hsafe]
          exact Option.some_ne_none _
        · exact Or.inl (hdigits c h)

theorem nul_not_all_safe {safe : Char → Bool} (hnul : safe '\x00' = false) {s : Str} :
    ('\x00' ∉ s ∨ ∀ c ∈ s, safe c = true) ↔ '\x00' ∉ s := by
  refine ⟨fun h => ?_, Or.inl⟩
  rcases h with h | hall
  · exact h
  · intro hmem
    rw [hall _ hmem] at hnul
    cases hnul

/-- The encoders that `http_decode` undoes do right by the strings without NUL, and
`http_encode_cookie`, for which NUL is safe, also by those that need no encoding at all. -/
theorem encoders_faithful_iff (s : Str) (hs : narrow s = true) :
    (Faithful httpEncode isSafe s ↔ '\x00' ∉ s) ∧
    (Faithful httpEncodeString isHttpSafe s ↔ '\x00' ∉ s) ∧
    (Faithful httpEncodeCookie isCookieSafe s ↔ '\x00' ∉ s ∨ ∀ c ∈ s, isCookieSafe c = true) :=
  ⟨(faithful_iff (by decide) (by decide) hs).trans (nul_not_all_safe (by decide)),
    (faithful_iff (by decide) (by decide) hs).trans (nul_not_all_safe (by decide)),
    faithful_iff (by decide) (by decide) hs⟩

/-- A string without NUL, through the three of them. -/
theorem encoders_faithful_percent :
    narrow ['a', '%', '\xff'] = true ∧
    (Faithful httpEncode isSafe ['a', '%', '\xff'] ↔ '\x00' ∉ ['a', '%', '\xff']) ∧
    (Faithful httpEncodeString isHttpSafe ['a', '%', '\xff'] ↔ '\x00' ∉ ['a', '%', '\xff']) ∧
    (Faithful httpEncodeCookie isCookieSafe ['a', '%', '\xff'] ↔
      '\x00' ∉ ['a', '%', '\xff'] ∨ ∀ c ∈ ['a', '%', '\xff'], isCookieSafe c = true) :=
  ⟨by decide, encoders_faithful_iff _ (by decide)⟩

/-- `"%\0b"` is encoded as `"%25"`. -/
theorem behind_nul_lost :
    ¬ ∀ s, narrow s = true → Faithful httpEncode isSafe s ∧ Faithful httpEncodeString isHttpSafe s ∧
      Faithful httpEncodeCookie isCookieSafe s := by
  intro h
  obtain ⟨⟨m, hm, hback, -⟩, -⟩ := h ['%', '\x00', 'b'] (by decide)
  have henc : httpEncode ['%', '\x00', 'b'] = some ['%', '2', '5'] := by decide
  rw [henc, Option.some.injEq] at hm
  subst hm
  exact absurd hback (by decide)

/-- What `http_decode_url` makes of a character that `http_encode_url` has written: the '+' is
left as it is by the one, and is a space for the other. -/
def plusToSpace (c : Char) : Char := if c = '+' then ' ' else c

theorem decoded_url (c : Char) : decoded isUrlSafe 2 c = plusToSpace c := by
  rw [decoded, decodePlain, plusToSpace]
  by_cases hc : c = '+'
  · subst hc
    rfl
  · have hplain : ¬(c = '+' ∧ 2 ≠ 1) := fun h => hc h.1
    rw [if_neg hplain, if_neg hc, ite_self]

theorem map_plusToSpace_eq {s : Str} : s.map plusToSpace = s ↔ '+' ∉ s := by
  induction s with
  | nil => exact ⟨fun _ => List.not_mem_nil, fun _ => rfl⟩
  | cons c s ih =>
    rw [List.map_cons, List.cons.injEq, ih, List.mem_cons, not_or]
    refine and_congr_left fun _ => ?_
    rw [plusToSpace]
    by_cases hc : c = '+'
    · subst hc
      decide
    · rw [if_neg hc]
      exact ⟨fun _ h => hc h.symm, fun _ => rfl⟩

/-- `http_encode_url`, then `http_decode_url`: each '+' has become a space, and nothing else is
different. -/
theorem decode_encode_url (s : Str) (hs : narrow s = true) (hnul : '\x00' ∉ s) :
    (httpEncodeUrl s).bind httpDecodeUrl = some (s.map plusToSpace) ∧
    ((httpEncodeUrl s).bind httpDecodeUrl = some s ↔ '+' ∉ s) := by
  have hlt := (narrow_iff s).mp hs
  have hback : (httpEncodeUrl s).bind httpDecodeUrl = some (s.map plusToSpace) := by
    rw [httpEncodeUrl, encodeWith_noNul hs hnul, Option.bind_some, httpDecodeUrl,
      if_pos (narrow_encode hlt)]
    show some (urlDecodeFrom 2 (s.flatMap (encodeChar isUrlSafe))) = _
    rw [urlDecodeFrom_encode (by decide) 2 hlt, List.map_congr_left fun c _ => decoded_url c]
  refine ⟨hback, ?_⟩
  rw [hback, Option.some.injEq]
  exact map_plusToSpace_eq

theorem decode_encode_url_space :
    narrow ['a', '+', ' ', '%'] = true ∧ '\x00' ∉ ['a', '+', ' ', '%'] ∧
    (httpEncodeUrl ['a', '+', ' ', '%']).bind httpDecodeUrl =
      some (['a', '+', ' ', '%'].map plusToSpace) ∧
    ((httpEncodeUrl ['a', '+', ' ', '%']).bind httpDecodeUrl = some ['a', '+', ' ', '%'] ↔
      '+' ∉ ['a', '+', ' ', '%']) :=
  ⟨by decide, by decide, decode_encode_url _ (by decide) (by decide)⟩

/-- A '+' does not come back. -/
theorem plus_becomes_space :
    ¬ ∀ s, narrow s = true → '\x00' ∉ s → (httpEncodeUrl s).bind httpDecodeUrl = some s := by
  intro h
  exact absurd (h ['+'] (by decide) (by decide)) (by decide)

end Caudium.Http
