import Caudium.Http.ParseGot
import Mathlib.Data.List.DropRight

/-!
# The wrapper around a CGI script (`cgi.pike`)

`Wrapper` puts what it is given into a buffer and writes the buffer to a pipe that may take less
than it is offered; what is left stays in the buffer. `CGIWrapper` collects what the script says
until the headers are complete, puts out the headers as HTTP has them, and from there on puts out
everything as it comes.

The headers end at "\r\n\r\n" or at "\n\n", whichever comes first (`headEnd_eq_some`), and both
are looked for in all that has come so far. What more comes makes no difference to an end that was
found (`Ends.append`), so that the cuts make none to what is put out: it is `translate` of the
whole output (`put_run`). A write that fails, which ends the wrapper, is left out.
-/

namespace Caudium.Cgi

open Lib (Str search cut)
open Http (lowerCase crlf2)

/-! ## The buffer -/

/-- `class Wrapper`: `sent` is what the pipe has taken, in `writes` calls of `write`. -/
structure Wrapper where
  sent : Str
  writes : Nat
  buffer : Str
  closeWhenDone : Bool
  destroyed : Bool

/-- What was put out: the pipe has taken it, or it waits for the pipe. -/
def Wrapper.put (w : Wrapper) : Str := w.sent ++ w.buffer

section Wrapper

/- How much the pipe takes in each call of `write`. -/
variable (takes : Nat → Nat)

/-- `write_callback`. -/
def Wrapper.writeCallback (w : Wrapper) : Wrapper :=
  if w.buffer = [] then w
  else
    let nelems := takes w.writes
    let w := { w with
      sent := w.sent ++ w.buffer.take nelems
      buffer := w.buffer.drop nelems
      writes := w.writes + 1 }
    if w.closeWhenDone ∧ w.buffer = [] then { w with destroyed := true } else w

/-- `output`. -/
def Wrapper.output (w : Wrapper) (what : Str) : Wrapper :=
  if w.buffer = [] then { w with buffer := what }.writeCallback takes
  else { w with buffer := w.buffer ++ what }

/-- `done`: what is in the buffer is written when the pipe has room. -/
def Wrapper.done (w : Wrapper) : Wrapper :=
  if w.buffer ≠ [] then { w with closeWhenDone := true } else { w with destroyed := true }

@[simp] theorem Wrapper.put_writeCallback (w : Wrapper) : (w.writeCallback takes).put = w.put := by
  unfold Wrapper.writeCallback
  split
  · rfl
  · dsimp only
    split <;> simp [Wrapper.put]

@[simp] theorem Wrapper.put_output (w : Wrapper) (what : Str) :
    (w.output takes what).put = w.put ++ what := by
  unfold Wrapper.output
  split
  next h =>
    rw [Wrapper.put_writeCallback]
    simp [Wrapper.put, h]
  next h => simp [Wrapper.put]

@[simp] theorem Wrapper.put_done (w : Wrapper) : w.done.put = w.put := by
  unfold Wrapper.done
  split <;> rfl

end Wrapper

/-! ## The headers -/

/-- `String.trim_whites`. -/
def trimWhites (s : Str) : Str :=
  (s.dropWhile fun c => c = ' ' || c = '\t').rdropWhile fun c => c = ' ' || c = '\t'

/-- The variables of `handle_headers`. -/
structure Translation where
  code : Str
  result : Str
  post : Str
  ctReceived : Bool
  svReceived : Bool

/-- A header line of the answer. -/
def writeHeader (header value : Str) : Str := header ++ ": ".toList ++ value ++ "\r\n".toList

/-- One turn of the loop in `handle_headers`. -/
def Translation.line (t : Translation) (h : Str) : Translation :=
  match cut h ":".toList with
  | none => { t with post := t.post ++ h ++ "\n".toList }
  | some (header, value) =>
    let header := trimWhites header
    let value := trimWhites value
    if lowerCase header = "status".toList then { t with code := value }
    else if lowerCase header = "content-type".toList then
      { t with ctReceived := true, result := t.result ++ writeHeader header value }
    else if lowerCase header = "server".toList then
      { t with svReceived := true, result := t.result ++ writeHeader header value }
    else if lowerCase header = "location".toList then
      { t with code := "302 Redirection".toList, result := t.result ++ writeHeader header value }
    else { t with result := t.result ++ writeHeader header value }

/-- The lines of the headers: `(headers-"\r") / "\n"`. -/
def headerLines (headers : Str) : List Str := (headers.filter (· ≠ '\r')).splitOn '\n'

/-- `handle_headers`; `version` is `caudium.version()`. -/
def handleHeaders (version headers : Str) : Str :=
  let t := (headerLines headers).foldl Translation.line
    { code := "200 OK".toList, result := [], post := [], ctReceived := false, svReceived := false }
  let result := t.result ++
    if t.svReceived then [] else "Server: ".toList ++ version ++ "\r\n".toList
  let result := result ++ if t.ctReceived then [] else "Content-Type: text/html\r\n".toList
  "HTTP/1.0 ".toList ++ t.code ++ "\r\n".toList ++ result ++ "\r\n".toList ++ t.post

/-- `"\n\n"`. -/
def lf2 : Str := ['\n', '\n']

/-- `pos` and `skip` in `parse_headers`. -/
def headEnd (headers : Str) : Option (Nat × Nat) :=
  match search headers crlf2 with
  | none =>
    match search headers lf2 with
    | none => none
    | some pos => some (pos, 2)
  | some pos =>
    match search (headers.take (pos + 1)) lf2 with
    | none => some (pos, 4)
    | some pos2 => some (pos2, 2)

/-! ## The wrapper -/

/-- `class CGIWrapper`. -/
structure CGIWrapper extends Wrapper where
  headers : Str
  mode : Nat

def CGIWrapper.fresh : CGIWrapper where
  sent := []
  writes := 0
  buffer := []
  closeWhenDone := false
  destroyed := false
  headers := []
  mode := 0

section CGIWrapper

variable (version : Str) (takes : Nat → Nat)

/-- `output`, which is inherited. -/
def CGIWrapper.output (w : CGIWrapper) (what : Str) : CGIWrapper :=
  { w with toWrapper := w.toWrapper.output takes what }

/-- `parse_headers`. -/
def CGIWrapper.parseHeaders (w : CGIWrapper) : Bool × CGIWrapper :=
  match headEnd w.headers with
  | none => (false, w)
  | some (pos, skip) =>
    let headers := w.headers
    let w := w.output takes (handleHeaders version (headers.take pos))
    let w := w.output takes (headers.drop (pos + skip))
    (true, { w with headers := [] })

/-- `process`. -/
def CGIWrapper.process (w : CGIWrapper) (what : Str) : CGIWrapper :=
  match w.mode with
  | 0 =>
    match { w with headers := w.headers ++ what }.parseHeaders version takes with
    | (true, w) => { w with mode := w.mode + 1 }
    | (false, w) => w
  | 1 => w.output takes what
  | _ => w

/-- `done`. -/
def CGIWrapper.done (w : CGIWrapper) : CGIWrapper :=
  let w := if w.headers ≠ [] then { w with headers := [] }.output takes w.headers else w
  { w with toWrapper := w.toWrapper.done }

/-- The script says the chunks and closes its output. -/
def run (chunks : List Str) : CGIWrapper :=
  (chunks.foldl (CGIWrapper.process version takes) CGIWrapper.fresh).done takes

end CGIWrapper

/-! ## The end of the headers -/

/-- One of the two ends stands at `j`. -/
def EndAt (s : Str) (j : Nat) : Prop := lf2 <+: s.drop j ∨ crlf2 <+: s.drop j

/-- The first end stands at `pos` and has `skip` characters. -/
structure Ends (s : Str) (pos skip : Nat) : Prop where
  found : skip = 2 ∧ lf2 <+: s.drop pos ∨ skip = 4 ∧ crlf2 <+: s.drop pos
  first : ∀ j < pos, ¬EndAt s j

theorem Ends.endAt {s : Str} {pos skip : Nat} (h : Ends s pos skip) : EndAt s pos := by
  rcases h.found with ⟨-, hat⟩ | ⟨-, hat⟩
  · exact Or.inl hat
  · exact Or.inr hat

theorem Ends.unique {s : Str} {pos skip pos' skip' : Nat} (h : Ends s pos skip)
    (h' : Ends s pos' skip') : (pos, skip) = (pos', skip') := by
  obtain rfl : pos = pos' := by
    rcases Nat.lt_trichotomy pos pos' with hlt | heq | hlt
    · exact absurd h.endAt (h'.first pos hlt)
    · exact heq
    · exact absurd h'.endAt (h.first pos' hlt)
  -- at one place there is only one of them
  rcases h.found with ⟨rfl, hat⟩ | ⟨rfl, hat⟩
  · rcases h'.found with ⟨rfl, -⟩ | ⟨rfl, hat'⟩
    · rfl
    · obtain ⟨t, ht⟩ := hat
      rw [← ht] at hat'
      exact absurd (List.cons_prefix_cons.mp hat').1 (by decide)
  · rcases h'.found with ⟨rfl, hat'⟩ | ⟨rfl, -⟩
    · obtain ⟨t, ht⟩ := hat
      rw [← ht] at hat'
      exact absurd (List.cons_prefix_cons.mp hat').1 (by decide)
    · rfl

theorem Ends.le {s : Str} {pos skip : Nat} (h : Ends s pos skip) :
    pos + skip ≤ s.length ∧ 2 ≤ skip := by
  rcases h.found with ⟨rfl, hat⟩ | ⟨rfl, hat⟩
  · have hlen := hat.length_le
    rw [List.length_drop] at hlen
    have : lf2.length = 2 := rfl
    omega
  · have hlen := hat.length_le
    rw [List.length_drop] at hlen
    have : crlf2.length = 4 := rfl
    omega

theorem headEnd_ends {s : Str} {pos skip : Nat} (h : headEnd s = some (pos, skip)) :
    Ends s pos skip := by
  unfold headEnd at h
  cases hcrlf : search s crlf2 with
  | none =>
    rw [hcrlf] at h
    dsimp only at h
    cases hlf : search s lf2 with
    | none =>
      rw [hlf] at h
      cases h
    | some p =>
      rw [hlf] at h
      cases h
      obtain ⟨hat, hbefore⟩ := Lib.search_eq_some.mp hlf
      refine ⟨Or.inl ⟨rfl, hat⟩, fun j hj hend => hend.elim (hbefore j hj) ?_⟩
      exact Lib.search_eq_none.mp hcrlf j
  | some p =>
    rw [hcrlf] at h
    dsimp only at h
    obtain ⟨hat, hbefore⟩ := Lib.search_eq_some.mp hcrlf
    have hle : p + 4 ≤ s.length := Lib.search_le hcrlf
    -- what is found in front of `p` is found in the part that is searched
    have hpart : ∀ j, j < p → (lf2 <+: s.drop j ↔ lf2 <+: (s.take (p + 1)).drop j) := by
      intro j hj
      have hfits : j + lf2.length ≤ (s.take (p + 1)).length := by
        rw [List.length_take]
        have : lf2.length = 2 := rfl
        omega
      conv_lhs => rw [← List.take_append_drop (p + 1) s]
      exact Lib.prefix_drop_append hfits
    cases hlf : search (s.take (p + 1)) lf2 with
    | none =>
      rw [hlf] at h
      cases h
      refine ⟨Or.inr ⟨rfl, hat⟩, fun j hj hend => hend.elim (fun hlf2 => ?_) (hbefore j hj)⟩
      exact Lib.search_eq_none.mp hlf j ((hpart j hj).mp hlf2)
    | some p2 =>
      rw [hlf] at h
      cases h
      obtain ⟨hat2, hbefore2⟩ := Lib.search_eq_some.mp hlf
      have hle2 : pos + 2 ≤ (s.take (p + 1)).length := Lib.search_le hlf
      rw [List.length_take] at hle2
      refine ⟨Or.inl ⟨rfl, (hpart pos (by omega)).mpr hat2⟩, fun j hj hend => ?_⟩
      exact hend.elim (fun hlf2 => hbefore2 j hj ((hpart j (by omega)).mp hlf2))
        (hbefore j (by omega))

theorem headEnd_none {s : Str} (h : headEnd s = none) (j : Nat) : ¬EndAt s j := by
  unfold headEnd at h
  cases hcrlf : search s crlf2 with
  | none =>
    rw [hcrlf] at h
    dsimp only at h
    cases hlf : search s lf2 with
    | none =>
      exact fun hend => hend.elim (Lib.search_eq_none.mp hlf j) (Lib.search_eq_none.mp hcrlf j)
    | some p =>
      rw [hlf] at h
      cases h
  | some p =>
    rw [hcrlf] at h
    dsimp only at h
    split at h <;> cases h

/-- **The end of the headers** is the first of the two. -/
theorem headEnd_eq_some {s : Str} {pos skip : Nat} :
    headEnd s = some (pos, skip) ↔ Ends s pos skip := by
  refine ⟨headEnd_ends, fun h => ?_⟩
  cases hend : headEnd s with
  | none => exact absurd h.endAt (headEnd_none hend pos)
  | some p =>
    obtain ⟨pos', skip'⟩ := p
    rw [(headEnd_ends hend).unique h]

/-- More text behind it makes no difference to the end. -/
theorem Ends.append {s : Str} {pos skip : Nat} (h : Ends s pos skip) (t : Str) :
    Ends (s ++ t) pos skip := by
  obtain ⟨hle, htwo⟩ := h.le
  have hlf : ∀ j ≤ pos, (lf2 <+: (s ++ t).drop j ↔ lf2 <+: s.drop j) := by
    intro j hj
    refine Lib.prefix_drop_append ?_
    have : lf2.length = 2 := rfl
    omega
  refine ⟨?_, fun j hj hend => h.first j hj ?_⟩
  · rcases h.found with ⟨rfl, hat⟩ | ⟨rfl, hat⟩
    · exact Or.inl ⟨rfl, (hlf pos (Nat.le_refl pos)).mpr hat⟩
    · exact Or.inr ⟨rfl, (Lib.prefix_drop_append hle).mpr hat⟩
  · rcases hend with hat | hat
    · exact Or.inl ((hlf j (Nat.le_of_lt hj)).mp hat)
    · by_cases hfits : j + 4 ≤ s.length
      · exact Or.inr ((Lib.prefix_drop_append hfits).mp hat)
      · -- it would reach into the "\n\n" that was found, and its third character is a CR
        exfalso
        rcases h.found with ⟨rfl, hfound⟩ | ⟨rfl, -⟩
        · obtain rfl : pos = j + 1 := by omega
          have hthird : (s ++ t)[j + 2]? = some '\r' := by
            obtain ⟨u, hu⟩ := hat
            rw [← List.getElem?_drop, ← hu]
            rfl
          have hsecond : s[j + 2]? = some '\n' := by
            obtain ⟨u, hu⟩ := hfound
            rw [show j + 2 = j + 1 + 1 from rfl, ← List.getElem?_drop, ← hu]
            rfl
          rw [List.getElem?_append_left (by omega), hsecond] at hthird
          exact absurd (Option.some.inj hthird) (by decide)
        · omega

/-! ## However the output is cut -/

section Run

variable (version : Str) (takes : Nat → Nat)

/-- What becomes of the whole output of a script. -/
def translate (said : Str) : Str :=
  match headEnd said with
  | none => said
  | some (pos, skip) => handleHeaders version (said.take pos) ++ said.drop (pos + skip)

/-- The wrapper when the script has said `said`. -/
inductive Follows (said : Str) (w : CGIWrapper) : Prop
  | inHeaders (hnone : headEnd said = none) (hmode : w.mode = 0) (hheaders : w.headers = said)
      (hput : w.put = [])
  | inBody {pos skip : Nat} (hends : Ends said pos skip) (hmode : w.mode = 1)
      (hheaders : w.headers = [])
      (hput : w.put = handleHeaders version (said.take pos) ++ said.drop (pos + skip))

variable {version}

/-- The call that finds the end. -/
theorem process_found {w : CGIWrapper} {what : Str} {pos skip : Nat} (hmode : w.mode = 0)
    (hend : headEnd (w.headers ++ what) = some (pos, skip)) (hput : w.put = []) :
    Follows version (w.headers ++ what) (w.process version takes what) := by
  have hprocess : w.process version takes what =
      { ((w.output takes (handleHeaders version ((w.headers ++ what).take pos))).output takes
        ((w.headers ++ what).drop (pos + skip))) with headers := [], mode := 1 } := by
    simp only [CGIWrapper.process, hmode]
    rw [CGIWrapper.parseHeaders, hend]
    rfl
  refine Follows.inBody (headEnd_eq_some.1 hend) ?_ ?_ ?_
  · rw [hprocess]
  · rw [hprocess]
  · rw [hprocess]
    simp [CGIWrapper.output, hput]

/-- The step: one more chunk. -/
theorem Follows.step {said : Str} {w : CGIWrapper} (h : Follows version said w) (what : Str) :
    Follows version (said ++ what) (w.process version takes what) := by
  cases h with
  | inHeaders hnone hmode hheaders hput =>
    cases hend : headEnd (said ++ what) with
    | none =>
      have hprocess : w.process version takes what = { w with headers := w.headers ++ what } := by
        simp only [CGIWrapper.process, hmode]
        rw [CGIWrapper.parseHeaders, hheaders, hend]
      rw [hprocess]
      exact Follows.inHeaders hend hmode (by rw [hheaders]) hput
    | some p =>
      obtain ⟨pos, skip⟩ := p
      rw [← hheaders] at hend ⊢
      exact process_found takes hmode hend hput
  | @inBody pos skip hends hmode hheaders hput =>
    obtain ⟨hle, -⟩ := hends.le
    have hprocess : w.process version takes what = w.output takes what := by
      simp only [CGIWrapper.process, hmode]
    rw [hprocess]
    refine Follows.inBody (hends.append what) hmode hheaders ?_
    show (w.toWrapper.output takes what).put = _
    rw [Wrapper.put_output, hput, List.take_append_of_le_length (by omega),
      List.drop_append_of_le_length (by omega), List.append_assoc]

/-- The run. -/
theorem Follows.run {said : Str} {w : CGIWrapper} (h : Follows version said w)
    (chunks : List Str) : Follows version (said ++ chunks.flatten)
      (chunks.foldl (CGIWrapper.process version takes) w) := by
  induction chunks generalizing said w with
  | nil => rwa [List.flatten_nil, List.append_nil]
  | cons what chunks ih =>
    rw [List.flatten_cons, ← List.append_assoc]
    exact ih (h.step takes what)

/-- `done` puts out what is left of the headers. -/
theorem Follows.done {said : Str} {w : CGIWrapper} (h : Follows version said w) :
    (w.done takes).put = translate version said := by
  unfold CGIWrapper.done translate
  cases h with
  | inHeaders hnone hmode hheaders hput =>
    rw [hnone]
    dsimp only
    split
    next hne => simp [CGIWrapper.output, hput, hheaders]
    next hnil =>
      rw [not_not] at hnil
      rw [Wrapper.put_done, hput, ← hheaders, hnil]
  | inBody hends hmode hheaders hput =>
    rw [headEnd_eq_some.2 hends, hheaders]
    dsimp only
    rw [if_neg (not_not.mpr rfl), Wrapper.put_done, hput]

/-- **The cuts make no difference**, and neither does what the pipe takes. -/
theorem put_run (chunks : List Str) :
    (run version takes chunks).put = translate version chunks.flatten := by
  have hfresh : Follows version [] CGIWrapper.fresh := Follows.inHeaders rfl rfl rfl rfl
  have hrun := hfresh.run takes chunks
  rw [List.nil_append] at hrun
  exact hrun.done takes

end Run

end Caudium.Cgi
