import Caudium.Config.Regions
import Caudium.Lib.Markup

/-!
# The configuration format of `newdecode`

`encode_regions` writes a configuration as a text with a container for each region,
variable and value; `decode_config_file` reads it with `parse_html`, which calls a function
for every container of given names with the text between the tags.

Only '<' and '>' of a string are written in another way, as `%3c` and `%3e`. What is read
back of a string is therefore what these two mean in it, whether they were written for a
'<' or a '>' or stood in the string (`unescape_escape`), and of a value what is read back
of its strings (`decoded`).
-/

namespace Caudium.BaseServer

open Lib (Str Mapping Value)
open Lib.Markup (Element)
open Config (Regions decimal castInt_decimal)
open Http (castInt)

/-! ## Strings -/

/-- `replace(s, ({ ">", "<" }), ({ "%3e", "%3c" }))`. -/
def escape : Str → Str
  | [] => []
  | c :: s =>
    if c = '>' then '%' :: '3' :: 'e' :: escape s
    else if c = '<' then '%' :: '3' :: 'c' :: escape s
    else c :: escape s

/-- `replace(s, ({ "%3e", "%3c" }), ({ ">", "<" }))`. -/
def unescape : Str → Str
  | '%' :: '3' :: 'e' :: s => '>' :: unescape s
  | '%' :: '3' :: 'c' :: s => '<' :: unescape s
  | c :: s => c :: unescape s
  | [] => []

/-- Neither sequence that stands for a '<' or a '>' occurs in the string. -/
def Literal (s : Str) : Prop := ¬ ['%', '3', 'c'] <:+: s ∧ ¬ ['%', '3', 'e'] <:+: s

/-- Only a '<' or a '>' is written in another way. -/
theorem escape_eq_cons {s t : Str} {c : Char} (h : escape s = c :: t) (hc : c ≠ '%') :
    ∃ s', s = c :: s' ∧ escape s' = t := by
  cases s with
  | nil => cases h
  | cons d s =>
    rw [escape] at h
    split at h
    · exact absurd (List.cons.inj h).1.symm hc
    · split at h
      · exact absurd (List.cons.inj h).1.symm hc
      · obtain ⟨rfl, rfl⟩ := List.cons.inj h
        exact ⟨s, rfl, rfl⟩

/-- What is read back of a string is what the sequences mean in it. -/
theorem unescape_escape (s : Str) : unescape (escape s) = unescape s := by
  induction s using unescape.induct with
  | case1 s ih => rw [unescape, ← ih]; rfl
  | case2 s ih => rw [unescape, ← ih]; rfl
  | case3 c s hgt hlt ih =>
    rw [escape, unescape]
    · split
      next hc => rw [unescape, ih, hc]
      next =>
        split
        next hc => rw [unescape, ih, hc]
        next =>
          rw [unescape, ih]
          · intro t h ht
            subst h
            obtain ⟨u, rfl, hu⟩ := escape_eq_cons ht (by decide)
            obtain ⟨u, rfl, hu⟩ := escape_eq_cons hu (by decide)
            exact hgt u rfl rfl
          · intro t h ht
            subst h
            obtain ⟨u, rfl, hu⟩ := escape_eq_cons ht (by decide)
            obtain ⟨u, rfl, hu⟩ := escape_eq_cons hu (by decide)
            exact hlt u rfl rfl
    · exact hgt
    · exact hlt
  | case4 => rfl

/-- A string gets shorter where a sequence is read as the character it stands for. -/
theorem unescape_spec (s : Str) : (unescape s).length ≤ s.length ∧
    (s.length ≤ (unescape s).length → Literal s) ∧ (Literal s → unescape s = s) := by
  induction s using unescape.induct with
  | case1 s ih =>
    rw [unescape]
    refine ⟨?_, fun h => ?_, fun h => ?_⟩
    · simp; omega
    · simp at h; omega
    · exact absurd (List.prefix_append ['%', '3', 'e'] s).isInfix h.2
  | case2 s ih =>
    rw [unescape]
    refine ⟨?_, fun h => ?_, fun h => ?_⟩
    · simp; omega
    · simp at h; omega
    · exact absurd (List.prefix_append ['%', '3', 'c'] s).isInfix h.1
  | case3 c s hgt hlt ih =>
    obtain ⟨hle, hlonger, hsame⟩ := ih
    have hliteral : Literal (c :: s) ↔ Literal s := by
      have hcons : ∀ d, (∀ t, c = '%' → s = '3' :: d :: t → False) →
          (['%', '3', d] <:+: c :: s ↔ ['%', '3', d] <:+: s) := by
        intro d hne
        refine List.infix_cons_iff.trans (or_iff_right ?_)
        intro hand
        obtain ⟨t, ht⟩ := hand
        obtain ⟨hc, hs⟩ := List.cons.inj ht
        exact hne t hc.symm hs.symm
      unfold Literal
      rw [hcons 'c' hlt, hcons 'e' hgt]
    rw [unescape, hliteral]
    · refine ⟨?_, fun h => ?_, fun h => ?_⟩
      · exact Nat.succ_le_succ hle
      · exact hlonger (Nat.le_of_succ_le_succ h)
      · rw [hsame h]
    · exact hgt
    · exact hlt
  | case4 => exact ⟨Nat.le_refl _, fun _ => ⟨by decide, by decide⟩, fun _ => rfl⟩

/-! ## Writing -/

/-- The names of the containers of a format. -/
structure Tags where
  array : Str
  mapping : Str
  list : Str
  mod : Str
  int : Str
  string : Str
  var : Str

/-- The names of `new_parse` and `new_decode_config_region`, and of `encode_mixed`. -/
def newTags : Tags where
  array := ['a']
  mapping := ['m', 'a', 'p']
  list := ['l', 's', 't']
  mod := ['m', 'o', 'd']
  int := ['i', 'n', 't']
  string := ['s', 't', 'r']
  var := ['v', 'a', 'r']

/-- `"<" + name + ">" + s + "</" + name + ">"`. -/
def container (name s : Str) : Str := ['<'] ++ name ++ ['>'] ++ s ++ Lib.Markup.closing name

/-- The line break before an element of an array or of a multiset. -/
def gap : Str := ['\n', ' ', ' ', ' ', ' ']

/-- The line break before the end of an array, and before its beginning. -/
def outdent : Str := ['\n', ' ', ' ']

mutual

/-- `encode_mixed`. -/
def encodeMixed : Value → Str
  | .str s => container newTags.string (escape s)
  | .int n => container newTags.int (decimal n)
  | .arr xs =>
    outdent ++ container newTags.array (gap ++ gap.intercalate (encodeAll xs) ++ outdent) ++ ['\n']
  | .set xs =>
    outdent ++ container newTags.list (gap ++ gap.intercalate (encodeAll xs) ++ outdent) ++ ['\n']
  | .map es => container newTags.mapping (encodeEntries es ++ [' ', ' ']) ++ ['\n']

def encodeAll : List Value → List Str
  | [] => []
  | x :: xs => encodeMixed x :: encodeAll xs

/-- The lines of a mapping. -/
def encodeEntries : List (Value × Value) → Str
  | [] => []
  | (k, x) :: es =>
    [' ', ' ', ' ', ' '] ++ encodeMixed k ++ [' ', ':', ' '] ++ encodeMixed x ++ ['\n'] ++
      encodeEntries es

end

/-- `sprintf("%-22s", s)`. -/
def padRight (s : Str) : Str := s ++ List.replicate (22 - s.length) ' '

/-- `encode_config_region`. -/
def encodeConfigRegion (m : Mapping Str Value) : Str :=
  m.entries.flatMap fun e =>
    " <var name=".toList ++ padRight (['\''] ++ e.1 ++ ['\'', '>']) ++ encodeMixed e.2 ++
      " </var>\n".toList

def header : Str := "6 <- Do not remove this number!   Caudium save file format>\n\n".toList

/-- `encode_regions`. -/
def encodeRegions (r : Regions) : Str :=
  header ++ r.entries.flatMap fun e =>
    "<region name='".toList ++ e.1 ++ "'>\n".toList ++ encodeConfigRegion e.2 ++
      "</region>\n\n".toList

/-! ## Reading -/

/-- `Caudium.parse_html`: the containers of the given names, in their order. -/
abbrev ParseHtml := Str → List Str → List Element

def nameKey : Str := ['n', 'a', 'm', 'e']

/-- `m->name`. -/
def nameArg (e : Element) : Str := (e.attrs.lookup nameKey).getD []

/-- `if(arrayp(res->res)) res->res += ({ v }); else res->res = v`. -/
def putRes (res v : Value) : Value :=
  match res with
  | .arr xs => .arr (xs ++ [v])
  | _ => v

/-- The elements that `@myres->res` passes. -/
def splice : Value → List Value
  | .arr xs => xs
  | _ => []

section

-- `parse` or `new_parse`
variable (parse : Str → Value → Option Value)

def decodeInt (s : Str) (res : Value) : Value := putRes res (.int (castInt s))

def decodeModule (s : Str) (res : Value) : Value := putRes res (.str s)

def decodeString (s : Str) (res : Value) : Value := putRes res (.str (unescape s))

/-- `decode_list` and `new_decode_list`. -/
def decodeList (s : Str) (res : Value) : Option Value :=
  (parse s (.arr [])).map fun myres => putRes res (.set (splice myres))

/-- `decode_array` and `new_decode_array`. -/
def decodeArray (s : Str) (res : Value) : Option Value :=
  (parse s (.arr [])).map fun myres => putRes res myres

/-- `decode_mapping` and `new_decode_mapping`. -/
def decodeMapping (s : Str) (res : Value) : Option Value :=
  (parse s (.arr [])).bind fun myres =>
    (Value.aggregateMapping [] (splice myres)).map fun es => putRes res (.map es)

end

/-- The names of `parse` and `decode_config_region`. -/
def oldTags : Tags where
  array := "array".toList
  mapping := "mapping".toList
  list := "list".toList
  mod := "module".toList
  int := "int".toList
  string := "string".toList
  var := "variable".toList

/-- The containers that stand for a value. -/
def Tags.values (t : Tags) : List Str := [t.array, t.mapping, t.list, t.mod, t.int, t.string]

variable (parseHtml : ParseHtml)

/-- The function of a container, called with what it has in it; `none` when it throws. -/
def decodeContainer (t : Tags) (parse : Str → Value → Option Value) (e : Element) (res : Value) :
    Option Value :=
  if e.name = t.array then decodeArray parse e.content res
  else if e.name = t.mapping then decodeMapping parse e.content res
  else if e.name = t.list then decodeList parse e.content res
  else if e.name = t.mod then some (decodeModule e.content res)
  else if e.name = t.int then some (decodeInt e.content res)
  else if e.name = t.string then some (decodeString e.content res)
  else some res

/-- `parse` and `new_parse`. What a container has in it is shorter than the text, so there are
not more levels than characters. -/
def parseValues (t : Tags) : Nat → Str → Value → Option Value
  | 0, _, res => some res
  | n + 1, s, res =>
    (parseHtml s t.values).foldlM
      (fun res e => decodeContainer t (parseValues t n) e res) res

/-- `decode_variable` and `new_decode_variable`. -/
def decodeVariable (t : Tags) (n : Nat) (e : Element) (res : Mapping Str Value) :
    Option (Mapping Str Value) :=
  (parseValues parseHtml t n e.content (.int 0)).map fun mr => res.insert (nameArg e) mr

/-- `decode_config_region` and `new_decode_config_region`. -/
def decodeConfigRegion (t : Tags) (n : Nat) (e : Element) (res2 : Regions) : Option Regions :=
  ((parseHtml e.content [t.var]).foldlM (fun res e => decodeVariable parseHtml t n e res) ∅).map
    fun res => res2.insert (nameArg e) res

def regionTag : Str := ['r', 'e', 'g', 'i', 'o', 'n']

/-- `decode_config_file`; `none` when it throws. `others` are the formats that do not use
`parse_html`: `compat_parse` and `decode_value`. -/
def decodeConfigFile (others : Str → Option Regions) (s : Str) : Option Regions :=
  let decodeRegions (t : Tags) : Option Regions :=
    (parseHtml s [regionTag]).foldlM
      (fun res e => decodeConfigRegion parseHtml t s.length e res) ∅
  match s with
  | [] => some ∅
  | '4' :: _ => decodeRegions oldTags
  | '6' :: _ => decodeRegions newTags
  | _ => others s

end Caudium.BaseServer
