import Caudium.Http.HeaderLoop
import Caudium.Http.ParseSplit

/-!
# From the request line to the headers (`caudium.c`)

`append` answers 1 exactly where it comes to the header loop. `Buffer.headerCall` is the buffer it
comes there with, and where in it the header text begins and how long it is. The URL is decoded
in front of the text, so the text is as it arrived (`HeaderCall.Ok`), and it ends with a LF.
-/

namespace Caudium.Http

open Lib (Bytes Str Mapping pread pwrite)

/-- A call of the header loop. -/
structure HeaderCall where
  buf : Buffer
  inp : Nat
  l : Nat

namespace HeaderCall

/-- The header text. -/
def text (c : HeaderCall) : Bytes := pread c.buf.data c.inp c.l

/-- What the loop starts with. -/
def start (c : HeaderCall) : HeaderState :=
  { data := c.buf.data, i := 0, os := 0, headers := c.buf.headers }

end HeaderCall

/-- From the protocol on. -/
def callProtocol (b : Buffer) (inp l : Nat) : Option HeaderCall :=
  match findProtocol (pread b.data inp l) with
  | none => none
  | some k =>
    let i := if byteAt b.data (inp + k - 1) ≠ cr then k + 1 else k
    let b := b.insertOther "protocol".toList (pread b.data inp (i - 1))
    if byteAt b.data (inp + i) = lf then some ⟨b, inp + i + 1, l - i - 1⟩
    else some ⟨b, inp + i, l - i⟩

/-- From the URL on. -/
def callFile (b : Buffer) (inp l : Nat) : Option HeaderCall :=
  match findFile (pread b.data inp l) with
  | none => none
  | some i =>
    let rawUrl := pread b.data inp i
    let r := charDecodeUrl rawUrl 0
    let b := { b.insertOther "raw_url".toList rawUrl with data := pwrite b.data inp r.1 }
    let b := b.insertOther "file".toList (cstring b.data inp)
    let b := match r.2 with
      | none => b
      | some query => b.insertOther "query".toList (pread b.data (inp + query) (i - query))
    callProtocol b (inp + (i + 1)) (l - (i + 1))

/-- Once the headers end before `pp`. -/
def callRequest (b : Buffer) (pp : Nat) : Option HeaderCall :=
  let b := b.insertOther "data".toList (b.data.drop pp)
  match findMethod (b.data.take pp) with
  | none => none
  | some i => callFile (b.insertOther "method".toList (pread b.data 0 i)) (i + 1) (pp - (i + 1))

/-- The header loop that `append` comes to, if it does. -/
def Buffer.headerCall (b : Buffer) (str : Bytes) : Option HeaderCall :=
  if b.free ≤ str.length then none
  else
    let start := b.data.length - 3
    let b := { b with data := b.data ++ str, free := b.free - str.length }
    let r := scan (b.data.drop start) 0
    if r.2 ≠ 2 then none else callRequest b (start + r.1)

/-- The answer is that of the header loop, or not 1. -/
def Answers (r : Nat × Buffer) (o : Option HeaderCall) : Prop :=
  match o with
  | none => r.1 ≠ 1
  | some c => r = parseHeaderLines c.buf c.inp c.l

theorem badRequest_answers (b : Buffer) : Answers (400, b) none := by
  show 400 ≠ 1
  decide

theorem parseProtocol_answers (b : Buffer) (inp l : Nat) :
    Answers (parseProtocol b inp l) (callProtocol b inp l) := by
  unfold parseProtocol callProtocol
  cases findProtocol (pread b.data inp l) with
  | none => exact badRequest_answers b
  | some k =>
    dsimp only
    generalize (if byteAt b.data (inp + k - 1) ≠ cr then k + 1 else k) = i
    split
    · exact rfl
    · exact rfl

theorem parseFile_answers (b : Buffer) (inp l : Nat) :
    Answers (parseFile b inp l) (callFile b inp l) := by
  unfold parseFile callFile
  cases findFile (pread b.data inp l) with
  | none => exact badRequest_answers b
  | some i => exact parseProtocol_answers _ _ _

theorem parseRequest_answers (b : Buffer) (pp : Nat) :
    Answers (parseRequest b pp) (callRequest b pp) := by
  unfold parseRequest callRequest
  dsimp only
  cases findMethod ((b.insertOther "data".toList (b.data.drop pp)).data.take pp) with
  | none => exact badRequest_answers _
  | some i => exact parseFile_answers _ _ _

/-- **`append` answers 1** exactly where it comes to the header loop, and leaves what that leaves. -/
theorem append_answers (b : Buffer) (str : Bytes) :
    Answers (b.append str) (b.headerCall str) := by
  unfold Buffer.append Buffer.headerCall
  by_cases hfree : b.free ≤ str.length
  · rw [if_pos hfree, if_pos hfree]
    show 413 ≠ 1
    decide
  · rw [if_neg hfree, if_neg hfree]
    dsimp only
    by_cases hend : (scan ((b.data ++ str).drop (b.data.length - 3)) 0).2 ≠ 2
    · rw [if_pos hend, if_pos hend]
      show 0 ≠ 1
      decide
    · rw [if_neg hend, if_neg hend]
      exact parseRequest_answers _ _

/-! ## The request line -/

theorem findIn_spec {stop bad : UInt8} {xs : Bytes} {i : Nat} (h : findIn stop bad xs = some i) :
    (stop ∉ xs.take i ∧ bad ∉ xs.take i) ∧ (xs[i]? = some stop ∨ i = xs.length) := by
  induction xs generalizing i with
  | nil =>
    obtain rfl : 0 = i := Option.some.inj h
    exact ⟨⟨List.not_mem_nil, List.not_mem_nil⟩, Or.inr rfl⟩
  | cons c xs ih =>
    unfold findIn at h
    split at h
    next hc =>
      obtain rfl : 0 = i := Option.some.inj h
      exact ⟨⟨List.not_mem_nil, List.not_mem_nil⟩, Or.inl (congrArg some hc)⟩
    next hc =>
      split at h
      next => cases h
      next hbad =>
        obtain ⟨k, hk, rfl⟩ := Option.map_eq_some_iff.mp h
        obtain ⟨⟨hstop, hnobad⟩, hat⟩ := ih hk
        rw [List.take_succ_cons, List.mem_cons, List.mem_cons, not_or, not_or]
        exact ⟨⟨⟨Ne.symm hc, hstop⟩, ⟨Ne.symm hbad, hnobad⟩⟩, hat.imp id (congrArg (· + 1))⟩

/-- What stands in front of the first `stop`. -/
theorem findIn_append {stop bad : UInt8} {xs : Bytes} (hstop : stop ∉ xs) (hbad : bad ∉ xs)
    (rest : Bytes) : findIn stop bad (xs ++ stop :: rest) = some xs.length := by
  induction xs with
  | nil => exact if_pos rfl
  | cons c xs ih =>
    rw [List.mem_cons, not_or] at hstop hbad
    rw [List.cons_append, findIn, if_neg (Ne.symm hstop.1), if_neg (Ne.symm hbad.1),
      ih hstop.2 hbad.2]
    rfl

/-- In a text that ends with a LF, the search stops in front of the end. -/
theorem findIn_lt {stop bad : UInt8} {xs : Bytes} {i : Nat} (hlast : xs.getLast? = some lf)
    (hlf : lf = stop ∨ lf = bad) (h : findIn stop bad xs = some i) : i < xs.length := by
  obtain ⟨⟨hstop, hbad⟩, hat⟩ := findIn_spec h
  rcases hat with hat | hat
  · exact (List.getElem?_eq_some_iff.mp hat).1
  · rw [hat, List.take_length] at hstop hbad
    have hmem := List.mem_of_getLast? hlast
    rcases hlf with he | he
    · rw [← he] at hstop
      exact absurd hmem hstop
    · rw [← he] at hbad
      exact absurd hmem hbad

/-- And a space that is found is not the last byte. -/
theorem findSpace_lt {xs : Bytes} {i : Nat} (hlast : xs.getLast? = some lf)
    (h : findIn space lf xs = some i) : i + 1 < xs.length := by
  have hlt := findIn_lt hlast (Or.inr rfl) h
  obtain ⟨-, hat⟩ := findIn_spec h
  rcases hat with hat | hat
  · by_contra hge
    have hi : xs.length - 1 = i := by omega
    rw [List.getLast?_eq_getElem?, hi, hat] at hlast
    exact absurd (Option.some.inj hlast) (by decide)
  · omega

theorem length_charDecodeUrl_le : ∀ (xs : Bytes) (p : Nat),
    (charDecodeUrl xs p).1.length ≤ xs.length + 1
  | [], p => Nat.le_refl _
  | [b], p => by
    unfold charDecodeUrl
    split
    · exact Nat.le_refl _
    · split
      · exact Nat.le_succ _
      · exact Nat.le_refl _
  | [b, c], p => by
    have ih := length_charDecodeUrl_le [c] (p + 1)
    unfold charDecodeUrl
    split
    · exact Nat.le_succ _
    · split
      · exact Nat.le_add_left _ _
      · exact Nat.succ_le_succ ih
  | b :: hi :: lo :: rest, p => by
    have ih := length_charDecodeUrl_le rest (p + 3)
    have ih' := length_charDecodeUrl_le (hi :: lo :: rest) (p + 1)
    unfold charDecodeUrl
    split
    · rw [List.length_cons, List.length_cons, List.length_cons, List.length_cons]
      omega
    · split
      · exact Nat.le_add_left _ _
      · exact Nat.succ_le_succ ih'

/-! ## The header text -/

/-- What the call of the header loop has of the buffer: the mapping, and from the header text on
the bytes as they arrived. -/
structure HeaderCall.Ok (b : Buffer) (pp : Nat) (c : HeaderCall) : Prop where
  headers : c.buf.headers = b.headers
  data : c.buf.data.drop c.inp = b.data.drop c.inp
  ends : 0 < c.l → c.inp + c.l = pp

/-- The text from `inp` to `pp` ends with a LF. -/
structure EndsLf (data : Bytes) (inp pp : Nat) : Prop where
  lt : inp < pp
  fits : pp ≤ data.length
  last : (pread data inp (pp - inp)).getLast? = some lf

namespace EndsLf

theorem length {data : Bytes} {inp pp : Nat} (h : EndsLf data inp pp) :
    (pread data inp (pp - inp)).length = pp - inp := by
  have hfits := h.fits
  rw [pread, List.length_take, List.length_drop]
  omega

/-- So does what is left of it, until nothing is. -/
theorem later {data data' : Bytes} {inp inp' pp : Nat} (h : EndsLf data inp pp) (hle : inp ≤ inp')
    (hlt : inp' < pp) (hlen : data'.length = data.length)
    (hdata : data'.drop inp' = data.drop inp') : EndsLf data' inp' pp := by
  have hlength := h.length
  obtain ⟨k, rfl⟩ := Nat.exists_eq_add_of_le hle
  have hrest : pread data' (inp + k) (pp - (inp + k)) = (pread data inp (pp - inp)).drop k := by
    rw [← pread_drop, pread, hdata, Nat.sub_add_eq]
    rfl
  refine ⟨hlt, by rw [hlen]; exact h.fits, ?_⟩
  rw [hrest, List.getLast?_drop, if_neg (by omega), h.last]

end EndsLf

theorem callProtocol_ok {b : Buffer} {inp pp : Nat} {c : HeaderCall} (hlf : EndsLf b.data inp pp)
    (h : callProtocol b inp (pp - inp) = some c) : c.Ok b pp ∧ inp ≤ c.inp := by
  unfold callProtocol at h
  cases hfind : findProtocol (pread b.data inp (pp - inp)) with
  | none =>
    rw [hfind] at h
    cases h
  | some k =>
    have hk := findIn_lt hlf.last (Or.inl rfl) hfind
    rw [hlf.length] at hk
    rw [hfind] at h
    dsimp only at h
    generalize (if byteAt b.data (inp + k - 1) ≠ cr then k + 1 else k) = i at h
    split at h
    · obtain rfl := Option.some.inj h
      exact ⟨⟨rfl, rfl, fun hpos => by dsimp only at hpos ⊢; omega⟩, by dsimp only; omega⟩
    · obtain rfl := Option.some.inj h
      exact ⟨⟨rfl, rfl, fun hpos => by dsimp only at hpos ⊢; omega⟩, by dsimp only; omega⟩

/-- The URL is decoded in front of the protocol. -/
theorem callFile_eq {b : Buffer} {inp l i : Nat} (h : findFile (pread b.data inp l) = some i) :
    ∃ b' : Buffer, callFile b inp l = callProtocol b' (inp + (i + 1)) (l - (i + 1)) ∧
      b'.headers = b.headers ∧
      b'.data = pwrite b.data inp (charDecodeUrl (pread b.data inp i) 0).1 := by
  unfold callFile
  rw [h]
  dsimp only
  cases (charDecodeUrl (pread b.data inp i) 0).2 with
  | none => exact ⟨_, rfl, rfl, rfl⟩
  | some query => exact ⟨_, rfl, rfl, rfl⟩

theorem decoded_fits {data : Bytes} {inp i : Nat} :
    inp + (charDecodeUrl (pread data inp i) 0).1.length ≤ inp + (i + 1) := by
  have hle := length_charDecodeUrl_le (pread data inp i) 0
  have hlen : (pread data inp i).length ≤ i := List.length_take_le _ _
  omega

theorem callFile_ok {b : Buffer} {inp pp : Nat} {c : HeaderCall} (hlf : EndsLf b.data inp pp)
    (h : callFile b inp (pp - inp) = some c) : c.Ok b pp := by
  cases hfind : findFile (pread b.data inp (pp - inp)) with
  | none =>
    unfold callFile at h
    rw [hfind] at h
    cases h
  | some i =>
    have hi := findSpace_lt hlf.last hfind
    have hfits := hlf.fits
    rw [hlf.length] at hi
    obtain ⟨b', hcall, hheaders, hdata⟩ := callFile_eq hfind
    have hwritten := @decoded_fits b.data inp i
    -- The URL is decoded in its place, in front of the protocol.
    have hdrop : ∀ n, inp + (i + 1) ≤ n → b'.data.drop n = b.data.drop n := by
      intro n hn
      rw [hdata, Lib.drop_pwrite (Nat.le_trans hwritten hn)]
    have hlen : b'.data.length = b.data.length := by
      rw [hdata, Lib.length_pwrite (by omega)]
    rw [hcall, Nat.sub_sub] at h
    have hlater : EndsLf b'.data (inp + (i + 1)) pp :=
      hlf.later (Nat.le_add_right _ _) (by omega) hlen (hdrop _ (Nat.le_refl _))
    obtain ⟨hok, hle⟩ := callProtocol_ok hlater h
    exact ⟨hok.headers.trans hheaders, hok.data.trans (hdrop _ hle), hok.ends⟩

theorem callRequest_ok {b : Buffer} {pp : Nat} {c : HeaderCall} (hlf : EndsLf b.data 0 pp)
    (h : callRequest b pp = some c) : c.Ok b pp := by
  unfold callRequest at h
  dsimp only at h
  cases hfind : findMethod ((b.insertOther "data".toList (b.data.drop pp)).data.take pp) with
  | none =>
    rw [hfind] at h
    cases h
  | some i =>
    rw [hfind] at h
    have hlen := hlf.length
    have hi := findSpace_lt hlf.last hfind
    rw [hlen] at hi
    have hlater : EndsLf b.data (i + 1) pp := hlf.later (Nat.zero_le _) (by omega) rfl rfl
    have hok := @callFile_ok ((b.insertOther "data".toList (b.data.drop pp)).insertOther
      "method".toList (pread b.data 0 i)) (i + 1) pp c hlater h
    exact ⟨hok.headers, hok.data, hok.ends⟩

/-- What is searched ends with a LF where the search ends. -/
theorem scan_endsLf (xs : Bytes) : ∀ {n : Nat}, n < 2 → (scan xs n).2 = 2 →
    (xs.take (scan xs n).1).getLast? = some lf := by
  induction xs with
  | nil =>
    intro n hn h
    have h2 : n = 2 := h
    omega
  | cons b xs ih =>
    intro n hn h
    rw [scan_cons hn] at h ⊢
    dsimp only at h ⊢
    rw [List.take_succ_cons]
    by_cases hslash : slash n b < 2
    · have hpos := scan_fst_pos hslash h
      have hlast := ih hslash h
      cases htake : xs.take (scan xs (slash n b)).1 with
      | nil =>
        rw [htake] at hlast
        cases hlast
      | cons c t =>
        rw [htake] at hlast
        rw [List.getLast?_cons_cons, hlast]
    -- The search ends at `b`, and only a LF brings the count to two.
    · have htwo : slash n b = 2 := by
        have hle := slash_le hn b
        omega
      have hlf : b = lf := by
        unfold slash at htwo
        split at htwo
        next hb => exact hb
        next =>
          split at htwo
          · cases htwo
          · omega
      rw [htwo, scan_two, hlf]
      rfl

/-- **The header text of a call**: it is what stands from `inp` on in what has arrived, and it
ends with a LF unless it is empty. -/
structure HeaderCall.Arrived (data : Bytes) (m : Mapping Bytes Svalue) (c : HeaderCall) : Prop where
  headers : c.buf.headers = m
  text : c.text = pread data c.inp c.l
  fits : 0 < c.l → c.inp + c.l ≤ c.buf.data.length
  last : 0 < c.l → byteAt c.buf.data (c.inp + (c.l - 1)) = lf

theorem HeaderCall.Ok.arrived {b : Buffer} {pp : Nat} {c : HeaderCall} (hlf : EndsLf b.data 0 pp)
    (h : c.Ok b pp) : c.Arrived b.data b.headers where
  headers := h.headers
  text := by rw [HeaderCall.text, pread, pread, h.data]
  fits hpos := by
    have hends := h.ends hpos
    have hfits := hlf.fits
    have hlen := congrArg List.length h.data
    rw [List.length_drop, List.length_drop] at hlen
    omega
  last hpos := by
    have hends := h.ends hpos
    have hlast := hlf.last
    rw [List.getLast?_eq_getElem?, hlf.length, pread, List.getElem?_take_of_lt (by omega),
      List.getElem?_drop] at hlast
    rw [← byteAt_drop, h.data, byteAt_drop, byteAt, List.getD_eq_getElem?_getD,
      show c.inp + (c.l - 1) = 0 + (pp - 0 - 1) by omega, hlast]
    rfl

theorem headerCall_arrived {b : Buffer} {str : Bytes} {c : HeaderCall}
    (h : b.headerCall str = some c) : c.Arrived (b.data ++ str) b.headers := by
  unfold Buffer.headerCall at h
  split at h
  · cases h
  · dsimp only at h
    split at h
    · cases h
    next hscan =>
      have htwo := not_not.mp hscan
      obtain ⟨start, hstart⟩ : ∃ start, start = b.data.length - 3 := ⟨_, rfl⟩
      rw [← hstart] at h htwo
      have hpos := scan_fst_pos (by decide) htwo
      have hle := scan_fst_le ((b.data ++ str).drop start) 0
      have hlast := scan_endsLf ((b.data ++ str).drop start) (by decide) htwo
      rw [List.length_drop] at hle
      have hlf : EndsLf (b.data ++ str) 0 (start + (scan ((b.data ++ str).drop start) 0).1) := by
        refine ⟨by omega, by omega, ?_⟩
        show ((b.data ++ str).take (start + (scan ((b.data ++ str).drop start) 0).1)).getLast? = _
        rw [List.take_add, List.getLast?_append, hlast]
        rfl
      have hok := @callRequest_ok
        { b with data := b.data ++ str, free := b.free - str.length } _ c hlf h
      exact hok.arrived hlf

/-- **What `append` leaves in the mapping** when it answers 1. -/
theorem append_headers {b : Buffer} {str : Bytes} {c : HeaderCall}
    (h : b.headerCall str = some c) :
    (b.append str).2.headers = insertFound b.headers (found c.text) := by
  have harrived := headerCall_arrived h
  have hanswers := append_answers b str
  rw [h] at hanswers
  have happend : b.append str = parseHeaderLines c.buf c.inp c.l := hanswers
  rw [happend, ← harrived.headers]
  exact headerLoop_headers harrived.fits harrived.last c.buf.headers

theorem headerCall_of_one {b : Buffer} {str : Bytes} (h : (b.append str).1 = 1) :
    ∃ c, b.headerCall str = some c := by
  have hanswers := append_answers b str
  cases hcall : b.headerCall str with
  | none =>
    rw [hcall] at hanswers
    exact absurd h hanswers
  | some c => exact ⟨c, rfl⟩

end Caudium.Http
