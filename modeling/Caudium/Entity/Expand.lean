import Caudium.Entity.EntParse

/-!
# What the entity parser computes

A text in which every '&' starts a reference is a sequence of segments: bytes
other than '&', and references. `expand` says what such a text stands for, one
segment after the other, threading the callback's state.

The loop is followed segment by segment. Between segments it is `Outside` a
reference, with nothing collected and nothing pending; within one it is `Inside`,
the three buffers holding what has been read of it. `Advances` says that a
segment brings the loop from outside to outside with that segment's expansion
written, or stops it because the result grew past its limit.
-/

namespace Caudium.Entity

open Lib (Bytes)

/-! ## Texts and their expansion -/

/-- A piece of a text. -/
inductive Segment where
  | lit (b : UInt8)
  | ref (name : Bytes) (parts : List Bytes)

/-- `name.part.part`. -/
def dotted (name : Bytes) (parts : List Bytes) : Bytes := name ++ parts.flatMap (dot :: ·)

/-- The parts as the callback gets them: one after the other, NULs between. -/
def joinParts : List Bytes → Bytes
  | [] => []
  | p :: ps => p ++ ps.flatMap (0 :: ·)

/-- A name is not empty and has none of the three special bytes. -/
structure NameOk (n : Bytes) : Prop where
  nonempty : n ≠ []
  plain : ∀ b ∈ n, b ≠ amp ∧ b ≠ semicolon ∧ b ≠ dot

namespace Segment

/-- The piece as it stands in the text. -/
def text : Segment → Bytes
  | lit b => [b]
  | ref name parts => amp :: (dotted name parts ++ [semicolon])

/-- A byte other than '&', or a reference that fits the parser's buffers. -/
def Wf : Segment → Prop
  | lit b => b ≠ amp
  | ref name parts =>
    NameOk name ∧ (∀ p ∈ parts, NameOk p) ∧ (dotted name parts).length ≤ maxEntsize

end Segment

/-- The text of a sequence of segments. -/
def textOf (segs : List Segment) : Bytes := segs.flatMap Segment.text

section Expand

variable {σ : Type} (cback : Option (EntCallback σ))

/-- What a segment stands for: a reference, the callback's buffer when it returned
one, and itself when it did not. -/
def expandOne (user : σ) : Segment → σ × Bytes
  | .lit b => (user, [b])
  | .ref name parts =>
    match cback with
    | none => (user, (Segment.ref name parts).text)
    | some cb =>
      let (user, res) := cb user (entArray name) (entArray (joinParts parts))
      (user, res.getD (Segment.ref name parts).text)

/-- What a text stands for. -/
def expand : σ → List Segment → σ × Bytes
  | user, [] => (user, [])
  | user, seg :: segs =>
    let (user, out) := expandOne cback user seg
    let (user, rest) := expand user segs
    (user, out ++ rest)

end Expand

namespace EntState

variable {σ : Type} {buf : Bytes} {cback : Option (EntCallback σ)}

/-! ## Where the loop stands -/

/-- The cursor and `curpos` agree, and `rest` is what is left of the text. -/
structure At (buf : Bytes) (s : EntState σ) (rest : Bytes) : Prop where
  tmp : s.tmp = some s.curpos
  rest : buf.drop s.curpos = rest
  running : s.returned = false
  ok : s.errcode = .ok
  nobuf : s.cbackbuf = none
  nolen : s.cbacklen = 0

/-- Between segments. -/
structure Outside (buf : Bytes) (s : EntState σ) (rest : Bytes) : Prop extends At buf s rest where
  outside : s.inEntity = false

/-- Within a reference, with what has been collected of it. -/
structure Inside (buf : Bytes) (s : EntState σ) (rest full name parts : Bytes) : Prop
    extends At buf s rest where
  inside : s.inEntity = true
  full : s.entfullname = full
  name : s.entname = name
  parts : s.entparts = parts

/-- The loop has given up: the result would be too long. -/
structure Stopped (s : EntState σ) : Prop where
  returned : s.returned = true
  err : s.errcode = .retBufTooLong

theorem At.byteAt {s : EntState σ} {c : UInt8} {rest : Bytes} (h : At buf s (c :: rest)) :
    byteAt buf s.curpos = c := by
  have hget := congrArg (fun l => l.getD 0 0) h.rest
  simpa [EntState.byteAt, List.getD_eq_getElem?_getD, List.getElem?_drop] using hget

theorem At.byteAt_succ {s : EntState σ} {c c' : UInt8} {rest : Bytes}
    (h : At buf s (c :: c' :: rest)) : EntState.byteAt buf (s.curpos + 1) = c' := by
  have hget := congrArg (fun l => l.getD 1 0) h.rest
  simpa [EntState.byteAt, List.getD_eq_getElem?_getD, List.getElem?_drop] using hget

theorem drop_succ {p : Nat} {c : UInt8} {rest : Bytes} (h : buf.drop p = c :: rest) :
    buf.drop (p + 1) = rest := by
  rw [← List.drop_drop, h]
  rfl

theorem At.live {s : EntState σ} {c : UInt8} {rest : Bytes} (h : At buf s (c :: rest)) :
    live buf s = true := by
  rw [live_iff, h.tmp]
  refine ⟨h.running, rfl, ?_⟩
  by_contra hge
  have hnil := List.drop_eq_nil_of_le (Nat.not_lt.mp hge)
  rw [h.rest] at hnil
  cases hnil

theorem loop_step {s : EntState σ} {c : UInt8} {rest : Bytes} (h : At buf s (c :: rest)) :
    s.loop buf cback = (s.step buf cback).loop buf cback :=
  Lib.runLoop_live left_falls h.live

/-- The switch, where the cursor stands on `c`. -/
theorem At.step (cback : Option (EntCallback σ)) {s : EntState σ} {c : UInt8} {rest : Bytes}
    (h : At buf s (c :: rest)) :
    s.step buf cback = if c = amp then s.stepAmp buf cback s.curpos
      else if c = semicolon then s.stepSemicolon buf cback s.curpos
      else if c = dot then s.stepDot buf cback s.curpos
      else s.stepOther buf cback s.curpos c := by
  rw [EntState.step, h.tmp]
  dsimp only
  rw [h.byteAt]

/-! ## Plain bytes -/

/-- The loop gets from `s` past a piece of the text whose expansion is `out`, or
gives up on the way. -/
def Advances (buf : Bytes) (cback : Option (EntCallback σ)) (s : EntState σ) (rest out : Bytes)
    (user : σ) : Prop :=
  ∃ t : EntState σ, s.loop buf cback = t.loop buf cback ∧
    (Stopped t ∨ (Outside buf t rest ∧ t.out = s.out ++ out ∧ t.user = user))

theorem Advances.trans {s : EntState σ} {rest rest' out out' : Bytes} {user user' : σ}
    (h : Advances buf cback s rest out user)
    (h' : ∀ t, Outside buf t rest → t.user = user → Advances buf cback t rest' out' user') :
    Advances buf cback s rest' (out ++ out') user' := by
  obtain ⟨t, ht, hstop | ⟨hout, ho, hu⟩⟩ := h
  · exact ⟨t, ht, Or.inl hstop⟩
  · obtain ⟨t', ht', hstop | ⟨hout', ho', hu'⟩⟩ := h' t hout hu
    · exact ⟨t', ht.trans ht', Or.inl hstop⟩
    · refine ⟨t', ht.trans ht', Or.inr ⟨hout', ?_, hu'⟩⟩
      rw [ho', ho, List.append_assoc]

/-- Appending the byte under the cursor. -/
theorem advances_appendData {s : EntState σ} {c : UInt8} {rest : Bytes}
    (h : Outside buf s (c :: rest)) (hstep : s.step buf cback = s.appendData buf) :
    Advances buf cback s rest [c] s.user := by
  refine ⟨s.appendData buf, ?_, ?_⟩
  · rw [loop_step h.toAt, hstep]
  · rcases s.appendData_cases buf with ⟨hr, he⟩ | ⟨n, he⟩
    · exact Or.inl ⟨hr, he⟩
    · have hcopy : s.copyData buf = { s with
          out := s.out ++ [c], tmp := some (s.curpos + 1), curpos := s.curpos + 1 } := by
        rw [copyData_byte h.nobuf h.nolen h.tmp, h.byteAt]
      rw [he, hcopy]
      exact Or.inr ⟨⟨⟨rfl, drop_succ h.rest, h.running, h.ok, h.nobuf, h.nolen⟩, h.outside⟩, rfl, rfl⟩

/-- Outside a reference a byte other than '&' is copied. -/
theorem advances_lit {s : EntState σ} {c : UInt8} {rest : Bytes} (h : Outside buf s (c :: rest))
    (hc : c ≠ amp) : Advances buf cback s rest [c] s.user := by
  refine advances_appendData h ?_
  have hnot : (cback.isNone || !s.inEntity) = true := by
    rw [h.outside]
    simp
  rw [h.toAt.step, if_neg hc]
  split
  · unfold stepSemicolon
    cases cback with
    | none => rfl
    | some cb => simp [h.outside]
  · split
    · rw [stepDot, if_pos hnot]
    · rw [stepOther, if_pos hnot]

theorem advances_lits {s : EntState σ} {cs rest : Bytes} {user : σ}
    (h : Outside buf s (cs ++ rest)) (hcs : ∀ c ∈ cs, c ≠ amp) (hu : s.user = user) :
    Advances buf cback s rest cs user := by
  induction cs generalizing s with
  | nil => exact ⟨s, rfl, Or.inr ⟨h, (List.append_nil _).symm, hu⟩⟩
  | cons c cs ih =>
    have hone : Advances buf cback s (cs ++ rest) [c] s.user := advances_lit h (hcs c (List.mem_cons_self ..))
    show Advances buf cback s rest ([c] ++ cs) user
    refine hone.trans fun t ht htu => ih ht (fun d hd => hcs d ?_) (htu.trans hu)
    exact List.mem_cons_of_mem _ hd

/-! ## A reference, byte by byte -/

/-- Reading on within a reference: the loop gets from `s` to a state inside with
these buffers, nothing written meanwhile. -/
def Reads (buf : Bytes) (cback : Option (EntCallback σ)) (s : EntState σ)
    (rest full name parts : Bytes) : Prop :=
  ∃ t : EntState σ, s.loop buf cback = t.loop buf cback ∧ Inside buf t rest full name parts ∧
    t.out = s.out ∧ t.user = s.user

theorem Reads.trans {s : EntState σ} {rest rest' full full' name name' parts parts' : Bytes}
    (h : Reads buf cback s rest full name parts)
    (h' : ∀ t, Inside buf t rest full name parts → Reads buf cback t rest' full' name' parts') :
    Reads buf cback s rest' full' name' parts' := by
  obtain ⟨t, ht, hin, ho, hu⟩ := h
  obtain ⟨t', ht', hin', ho', hu'⟩ := h' t hin
  exact ⟨t', ht.trans ht', hin', ho'.trans ho, hu'.trans hu⟩

theorem Inside.reads {s : EntState σ} {rest full name parts : Bytes}
    (h : Inside buf s rest full name parts) : Reads buf cback s rest full name parts :=
  ⟨s, rfl, h, rfl, rfl⟩

section Callback

variable (cb : EntCallback σ)

/-- A plain byte goes to the name, or, once there are parts, to the parts. -/
theorem reads_char {s : EntState σ} {c : UInt8} {rest full name parts : Bytes}
    (h : Inside buf s (c :: rest) full name parts) (hc : c ≠ amp ∧ c ≠ semicolon ∧ c ≠ dot)
    (hlen : full.length < maxEntsize) :
    Reads buf (some cb) s rest (full ++ [c]) (if parts = [] then name ++ [c] else name)
      (if parts = [] then [] else parts ++ [c]) := by
  have hstep := h.toAt.step (some cb)
  rw [if_neg hc.1, if_neg hc.2.1, if_neg hc.2.2, stepOther, h.inside, h.full, h.name, h.parts,
    if_neg (by simp), if_neg (Nat.not_le.mpr hlen)] at hstep
  refine ⟨s.step buf (some cb), loop_step h.toAt, ?_⟩
  rw [hstep]
  split
  next hp =>
    exact ⟨⟨⟨rfl, drop_succ h.rest, h.running, h.ok, h.nobuf, h.nolen⟩, rfl, rfl, rfl, hp⟩,
      rfl, rfl⟩
  next =>
    exact ⟨⟨⟨rfl, drop_succ h.rest, h.running, h.ok, h.nobuf, h.nolen⟩, rfl, rfl, rfl, rfl⟩,
      rfl, rfl⟩

/-- The bytes of the first name. -/
theorem reads_name {s : EntState σ} {n rest full name : Bytes}
    (h : Inside buf s (n ++ rest) full name []) (hn : ∀ b ∈ n, b ≠ amp ∧ b ≠ semicolon ∧ b ≠ dot)
    (hlen : full.length + n.length ≤ maxEntsize) :
    Reads buf (some cb) s rest (full ++ n) (name ++ n) [] := by
  induction n generalizing s full name with
  | nil => simpa using h.reads
  | cons c n ih =>
    rw [List.length_cons] at hlen
    have hone := reads_char cb h (hn c (List.mem_cons_self ..)) (by omega)
    rw [if_pos rfl, if_pos rfl] at hone
    refine hone.trans fun t ht => ?_
    have hrest := ih ht (fun b hb => hn b (List.mem_cons_of_mem _ hb)) (by
      rw [List.length_append, List.length_singleton]
      omega)
    simpa using hrest

/-- The bytes of a part, once there is one. -/
theorem reads_part {s : EntState σ} {n rest full name parts : Bytes}
    (h : Inside buf s (n ++ rest) full name parts) (hparts : parts ≠ [])
    (hn : ∀ b ∈ n, b ≠ amp ∧ b ≠ semicolon ∧ b ≠ dot)
    (hlen : full.length + n.length ≤ maxEntsize) :
    Reads buf (some cb) s rest (full ++ n) name (parts ++ n) := by
  induction n generalizing s full parts with
  | nil => simpa using h.reads
  | cons c n ih =>
    rw [List.length_cons] at hlen
    have hone := reads_char cb h (hn c (List.mem_cons_self ..)) (by omega)
    rw [if_neg hparts, if_neg hparts] at hone
    refine hone.trans fun t ht => ?_
    have hrest := ih ht (by simp) (fun b hb => hn b (List.mem_cons_of_mem _ hb)) (by
      rw [List.length_append, List.length_singleton]
      omega)
    simpa using hrest

/-- The first dot takes the byte after it along as the first one of the parts. -/
theorem reads_first_dot {s : EntState σ} {c : UInt8} {rest full name : Bytes}
    (h : Inside buf s (dot :: c :: rest) full name []) (hname : name ≠ []) :
    Reads buf (some cb) s rest (full ++ [dot, c]) name [c] := by
  have hstep := h.toAt.step (some cb)
  rw [if_neg (by decide), if_neg (by decide), if_pos rfl, stepDot, h.inside, h.full, h.name,
    h.parts, if_neg (by simp), if_neg hname, if_neg (by simp), h.toAt.byteAt_succ] at hstep
  refine ⟨s.step buf (some cb), loop_step h.toAt, ?_⟩
  rw [hstep]
  have hdrop : buf.drop (s.curpos + 2) = rest := drop_succ (drop_succ h.rest)
  exact ⟨⟨⟨rfl, hdrop, h.running, h.ok, h.nobuf, h.nolen⟩, rfl, rfl, rfl, rfl⟩, rfl, rfl⟩

/-- A later dot ends a part with a NUL. -/
theorem reads_dot {s : EntState σ} {rest full name parts : Bytes}
    (h : Inside buf s (dot :: rest) full name parts) (hname : name ≠ []) (hparts : parts ≠ []) :
    Reads buf (some cb) s rest (full ++ [dot]) name (parts ++ [0]) := by
  have hstep := h.toAt.step (some cb)
  rw [if_neg (by decide), if_neg (by decide), if_pos rfl, stepDot, h.inside, h.full, h.name,
    h.parts, if_neg (by simp), if_neg hname, if_pos hparts] at hstep
  refine ⟨s.step buf (some cb), loop_step h.toAt, ?_⟩
  rw [hstep]
  exact ⟨⟨⟨rfl, drop_succ h.rest, h.running, h.ok, h.nobuf, h.nolen⟩, rfl, rfl, rfl, rfl⟩,
    rfl, rfl⟩

/-- All the parts after the first. -/
theorem reads_parts {s : EntState σ} {ps : List Bytes} {rest full name parts : Bytes}
    (h : Inside buf s (ps.flatMap (dot :: ·) ++ rest) full name parts) (hname : name ≠ [])
    (hparts : parts ≠ []) (hps : ∀ p ∈ ps, NameOk p)
    (hlen : full.length + (ps.flatMap (dot :: ·)).length ≤ maxEntsize) :
    Reads buf (some cb) s rest (full ++ ps.flatMap (dot :: ·)) name
      (parts ++ ps.flatMap (0 :: ·)) := by
  induction ps generalizing s full parts with
  | nil => simpa using h.reads
  | cons p ps ih =>
    simp only [List.flatMap_cons, List.cons_append, List.append_assoc, List.length_cons,
      List.length_append] at h hlen
    refine (reads_dot cb h hname hparts).trans fun t ht => ?_
    refine (reads_part cb ht (by simp) (hps p (List.mem_cons_self ..)).plain (by
      rw [List.length_append, List.length_singleton]
      omega)).trans fun t' ht' => ?_
    have hrest := ih ht' (by simp) (fun q hq => hps q (List.mem_cons_of_mem _ hq)) (by
      rw [List.length_append, List.length_append, List.length_singleton]
      omega)
    simpa using hrest

/-- The whole reference up to its ';', the '&' behind. -/
theorem reads_ref {s : EntState σ} {name : Bytes} {parts : List Bytes} {rest : Bytes}
    (h : Inside buf s (dotted name parts ++ rest) [] [] []) (hname : NameOk name)
    (hparts : ∀ p ∈ parts, NameOk p) (hlen : (dotted name parts).length ≤ maxEntsize) :
    Reads buf (some cb) s rest (dotted name parts) name (joinParts parts) := by
  rw [dotted, List.length_append] at hlen
  rw [dotted, List.append_assoc] at h
  have hfirst := reads_name cb h hname.plain (by simp; omega)
  cases parts with
  | nil => simpa [dotted, joinParts] using hfirst
  | cons p ps =>
    -- the first part: its first byte comes with the dot, the others one by one
    obtain ⟨c, cs, rfl⟩ : ∃ c cs, p = c :: cs :=
      List.exists_cons_of_ne_nil (hparts p (List.mem_cons_self ..)).nonempty
    have hplain := (hparts _ (List.mem_cons_self ..)).plain
    simp only [List.flatMap_cons, List.cons_append, List.append_assoc, List.length_cons,
      List.length_append, List.nil_append] at hfirst hlen
    refine hfirst.trans fun t ht => ?_
    refine (reads_first_dot cb ht hname.nonempty).trans fun t₁ ht₁ => ?_
    refine (reads_part cb ht₁ (by simp) (fun b hb => hplain b (List.mem_cons_of_mem _ hb)) (by
      rw [List.length_append]
      simp only [List.length_cons, List.length_nil]
      omega)).trans fun t₂ ht₂ => ?_
    have hrest := reads_parts cb ht₂ hname.nonempty (by simp)
      (fun q hq => hparts q (List.mem_cons_of_mem _ hq)) (by
        simp only [List.length_append, List.length_cons, List.length_nil]
        omega)
    simpa [dotted, joinParts] using hrest

/-- The '&' of a reference empties the buffers. -/
theorem reads_amp {s : EntState σ} {c : UInt8} {rest : Bytes} (h : Outside buf s (amp :: c :: rest))
    (hc : c ≠ amp) : Reads buf (some cb) s (c :: rest) [] [] [] := by
  have hstep := h.toAt.step (some cb)
  rw [if_pos rfl, stepAmp, h.toAt.byteAt_succ, if_neg hc, if_neg (by simp)] at hstep
  refine ⟨s.step buf (some cb), loop_step h.toAt, ?_⟩
  rw [hstep]
  exact ⟨⟨⟨rfl, drop_succ h.rest, h.running, h.ok, h.nobuf, h.nolen⟩, rfl, rfl, rfl, rfl⟩, rfl, rfl⟩

/-- The ';' calls back and writes the replacement, or the reference. -/
theorem advances_semicolon {s : EntState σ} {rest full name parts : Bytes}
    (h : Inside buf s (semicolon :: rest) full name parts) (hfull : full ≠ []) :
    Advances buf (some cb) s rest
      ((cb s.user (entArray name) (entArray parts)).2.getD (amp :: full ++ [semicolon]))
      (cb s.user (entArray name) (entArray parts)).1 := by
  have hstep := h.toAt.step (some cb)
  rw [if_neg (by decide), if_pos rfl] at hstep
  simp only [stepSemicolon, h.inside, h.full, h.name, h.parts, Bool.not_true, Bool.false_eq_true,
    if_false] at hstep
  set r := cb s.user (entArray name) (entArray parts)
  refine ⟨s.step buf (some cb), loop_step h.toAt, ?_⟩
  rw [hstep]
  rcases appendData_cases buf { s with
      tmp := some (s.curpos + 1), inEntity := false, entfullname := full, entname := name
      entparts := parts, user := r.1, cbackbuf := r.2
      cbacklen := cbackLen r.2 full.length } with ⟨hr, he⟩ | ⟨n, he⟩
  · exact Or.inl ⟨hr, he⟩
  · rw [he]
    cases hres : r.2 with
    | some b =>
      exact Or.inr ⟨⟨⟨rfl, drop_succ h.rest, h.running, h.ok, rfl, rfl⟩, rfl⟩, rfl, rfl⟩
    | none =>
      have hne : full.length ≠ 0 := fun e => hfull (List.eq_nil_of_length_eq_zero e)
      have htake : (entArray full).take full.length = full := by
        rw [entArray, List.take_left]
      rw [copyData_verbatim rfl hne]
      refine Or.inr ⟨⟨⟨rfl, drop_succ h.rest, h.running, h.ok, rfl, rfl⟩, rfl⟩, ?_, rfl⟩
      show s.out ++ amp :: (entArray full).take full.length ++ [semicolon] = _
      rw [htake, Option.getD_none]
      simp

end Callback

/-! ## Segments and texts -/

theorem dotted_ne_nil {name : Bytes} (h : NameOk name) (parts : List Bytes) :
    dotted name parts ≠ [] := fun e => h.nonempty (List.append_eq_nil_iff.mp e).1

/-- No '&' within a reference. -/
theorem dotted_plain {name : Bytes} {parts : List Bytes} (h : NameOk name)
    (hparts : ∀ p ∈ parts, NameOk p) : ∀ b ∈ dotted name parts, b ≠ amp := by
  intro b hb
  rcases List.mem_append.mp hb with hb | hb
  · exact (h.plain b hb).1
  · obtain ⟨p, hp, hb⟩ := List.mem_flatMap.mp hb
    rcases List.mem_cons.mp hb with rfl | hb
    · decide
    · exact ((hparts p hp).plain b hb).1

/-- **One segment**: the loop writes its expansion, or gives up. -/
theorem advances_segment {s : EntState σ} {seg : Segment} {rest : Bytes} (hseg : seg.Wf)
    (h : Outside buf s (seg.text ++ rest)) :
    Advances buf cback s rest (expandOne cback s.user seg).2 (expandOne cback s.user seg).1 := by
  cases seg with
  | lit b => exact advances_lit h hseg
  | ref name parts =>
    obtain ⟨hname, hparts, hlen⟩ := hseg
    obtain ⟨c, cs, hcs⟩ := List.exists_cons_of_ne_nil (dotted_ne_nil hname parts)
    have hplain := dotted_plain hname hparts
    have hc : c ≠ amp := hplain c (by rw [hcs]; exact List.mem_cons_self ..)
    rw [Segment.text, List.cons_append, List.append_assoc] at h
    cases cback with
    | none =>
      -- without a callback the '&' is copied like the bytes after it
      have hamp : s.step buf none = s.appendData buf := by
        have hbyte := h
        rw [hcs, List.cons_append] at hbyte
        rw [h.toAt.step, if_pos rfl, stepAmp, hbyte.toAt.byteAt_succ, if_neg hc]
        rfl
      show Advances buf none s rest ([amp] ++ (dotted name parts ++ [semicolon])) s.user
      refine (advances_appendData h hamp).trans fun t ht htu => ?_
      rw [← List.append_assoc] at ht
      refine advances_lits ht (fun b hb => ?_) htu
      rcases List.mem_append.mp hb with hb | hb
      · exact hplain b hb
      · rw [List.mem_singleton.mp hb]
        decide
    | some cb =>
      have hread : Reads buf (some cb) s (semicolon :: rest) (dotted name parts) name
          (joinParts parts) := by
        rw [hcs, List.cons_append] at h
        refine (reads_amp cb h hc).trans fun t ht => ?_
        rw [← List.cons_append, ← hcs] at ht
        exact reads_ref cb ht hname hparts hlen
      obtain ⟨t, ht, hin, ho, hu⟩ := hread
      obtain ⟨t', ht', hend⟩ := advances_semicolon cb hin (dotted_ne_nil hname parts)
      rw [ho, hu] at hend
      exact ⟨t', ht.trans ht', hend⟩

/-- **A text**: the loop writes its expansion, or gives up. -/
theorem advances_text (cback : Option (EntCallback σ)) (segs : List Segment) (hsegs : ∀ seg ∈ segs, seg.Wf) :
    ∀ s : EntState σ, Outside buf s (textOf segs) →
      Advances buf cback s [] (expand cback s.user segs).2 (expand cback s.user segs).1 := by
  induction segs with
  | nil => exact fun s h => ⟨s, rfl, Or.inr ⟨h, (List.append_nil _).symm, rfl⟩⟩
  | cons seg segs ih =>
    intro s h
    have hone : Advances buf cback s (textOf segs) (expandOne cback s.user seg).2
        (expandOne cback s.user seg).1 := advances_segment (hsegs seg (List.mem_cons_self ..)) h
    refine hone.trans fun t ht htu => ?_
    have hrest := ih (fun seg' h' => hsegs seg' (List.mem_cons_of_mem _ h')) t ht
    rw [htu] at hrest
    exact hrest

end EntState

/-- **The entity parser expands.** On a text in which every '&' starts a
well-formed reference, with any callback or none: when it ends without an error
its result is the text with each reference replaced by what the callback returned
for it, or left as it stands, and every other byte copied. -/
theorem entParser_expands {σ : Type} (cback : Option (EntCallback σ)) (user : σ)
    (segs : List Segment) (hsegs : ∀ seg ∈ segs, seg.Wf)
    (hok : (entParser (some (textOf segs)) cback user).1.errcode = .ok) :
    (entParser (some (textOf segs)) cback user).1.buf = (expand cback user segs).2 ∧
    (entParser (some (textOf segs)) cback user).1.buflen = (expand cback user segs).2.length ∧
    (entParser (some (textOf segs)) cback user).2 = (expand cback user segs).1 := by
  unfold entParser at hok ⊢
  dsimp only at hok ⊢
  split at hok
  · cases hok
  next hfits =>
    rw [if_neg hfits]
    have h₀ : EntState.Outside (textOf segs) (EntState.init (textOf segs) user) (textOf segs) :=
      ⟨⟨rfl, rfl, rfl, rfl, rfl, rfl⟩, rfl⟩
    obtain ⟨t, ht, hstop | ⟨hout, ho, hu⟩⟩ :=
      EntState.advances_text cback segs hsegs _ h₀
    · -- it gave up, so it did not end without an error
      have hdead : t.live (textOf segs) = false := by
        rw [EntState.live, hstop.returned]
        rfl
      rw [ht, EntState.loop, Lib.runLoop_stop hdead, EntState.finish, if_pos hstop.returned,
        hstop.err] at hok
      cases hok
    · have hdead : t.live (textOf segs) = false := by
        rw [← Bool.not_eq_true, EntState.live_iff]
        intro h
        obtain ⟨-, -, hlt⟩ := h
        have hlen := congrArg List.length hout.rest
        rw [List.length_drop, List.length_nil] at hlen
        omega
      rw [ht, EntState.loop, Lib.runLoop_stop hdead, EntState.finish,
        if_neg (by rw [hout.running]; decide)]
      exact ⟨ho, congrArg List.length ho, hu⟩

/-- The callback that answers `&v…` with a part `x…` by "42" and counts its calls. -/
def sampleCallback : EntCallback Nat := fun n name parts =>
  (n + 1, if name.head? = some 118 ∧ parts.head? = some 120 then some [52, 50] else none)

/-- "a&v.x;&q;": the first reference is replaced, the second stays. -/
theorem entParser_expands_sample :
    (entParser (some [97, 38, 118, 46, 120, 59, 38, 113, 59]) (some sampleCallback) 0).1.buf
      = [97, 52, 50, 38, 113, 59] :=
  (entParser_expands (some sampleCallback) 0 [.lit 97, .ref [118] [[120]], .ref [113] []]
    (by
      intro seg hseg
      simp only [List.mem_cons, List.not_mem_nil, or_false] at hseg
      rcases hseg with rfl | rfl | rfl
      · show (97 : UInt8) ≠ amp
        decide
      · exact ⟨⟨by decide, by decide +kernel⟩, by simpa using ⟨by decide, by decide +kernel⟩,
          by decide⟩
      · exact ⟨⟨by decide, by decide +kernel⟩, by simp, by decide⟩)
    (by decide +kernel)).1

end Caudium.Entity
