import Caudium.Config.Files
import Caudium.Lib.Path
import Caudium.Psp.Blocks

/-!
# The PSP compiler (`PSPCompiler.pike`, `psp.pike`)

`parse_psp` cuts a page into blocks and renders one after the other; an include directive stands
for the blocks of another page, which `render_psp` renders in its place by calling itself.
`process_include` counts the directives in `includes` and refuses one when more than
`max_includes` were met. The count belongs to the compiler, and psp.pike keeps one compiler for
all pages.
-/

namespace Caudium.Psp

open Lib (Str components cut)
open Http (slice)
open Config (trimAllWhites)

/-- What the compiler takes from outside. -/
structure Site where
  /-- `document_root` -/
  documentRoot : Str
  /-- `Stdio.append_path` -/
  appendPath : Str → Str → Str
  /-- `Stdio.read_file`: the file, 0 if there is none, or the error it throws. -/
  readFile : Str → Except Str (Option Str)

inductive Fault
  /-- `Error.Generic` -/
  | generic (message : Str)
  /-- The interpreter's error for an index that is out of range. -/
  | index
  /-- What `Stdio.read_file` throws. -/
  | stdio (message : Str)
  deriving DecidableEq

/-- Why there is no code. -/
inductive Stop
  | thrown (fault : Fault)
  /-- The call never returns. -/
  | never
  /-- Calls are nested deeper than `maxDepth`; it does not happen (`renderPsp_counted`). -/
  | tooDeep
  deriving DecidableEq

def tooManyIncludes : Fault :=
  .generic "PSP Error: too many includes, possible recursion!\n".toList

def directiveFormat : Fault := .generic "PSP format error: invalid directive format.\n".toList

def unknownDirective (keyword : Str) : Fault :=
  .generic ("PSP format error: unknown directive ".toList ++ keyword ++ ".\n".toList)

def includeFormat : Fault := .generic "PSP format error: unknown include format.\n".toList

def contentTypeFormat : Fault :=
  .generic "PSP format error: unknown content-type format.\n".toList

/-- `max_includes` -/
def maxIncludes : Nat := 100

/-- The compiler object. -/
structure Compiler where
  includes : Nat
  deriving DecidableEq

/-- `PSPCompiler()` -/
def Compiler.new : Compiler := { includes := 0 }

/-! ## Blocks as code -/

/-- `get_type` -/
inductive BlockType
  /-- 0, what `Block` itself says -/
  | text
  | scriptlet
  | declaration
  | inline
  | directive
  deriving DecidableEq

def Block.getType (b : Block) : BlockType :=
  match b.kind with
  | .text => .text
  | .pike =>
    if "<%=".toList <+: b.contents then .inline
    else if "<%!".toList <+: b.contents then .declaration
    else if "<%@".toList <+: b.contents then .directive
    else .scriptlet

/-- The lines of a text, each with the newline that ends it. -/
def linesOf : Str → List Str
  | [] => []
  | c :: s =>
    if c = '\n' then [c] :: linesOf s
    else
      match linesOf s with
      | [] => [[c]]
      | line :: rest => (c :: line) :: rest

/-- `replace(line, in, out)` -/
def escapeLine (line : Str) : Str :=
  line.flatMap fun c =>
    if c = '\\' then ['\\', '\\'] else if c = '"' then ['\\', '"']
    else if c = '\n' then ['\\', 'n'] else [c]

/-- `#line` with a line number and the name of the file. -/
def lineDirective (line : Nat) (filename : Str) : Str :=
  "#line ".toList ++ Nat.toDigits 10 line ++ " \"".toList ++ filename ++ "\"\n".toList

/-- The loop of `escape_string`, from the line `cl` on. -/
def escapeLines (filename : Str) : Nat → List Str → Str
  | _, [] => []
  | cl, line :: rest =>
    lineDirective cl filename ++ " out->add(\"".toList ++ escapeLine line ++ "\");\n".toList ++
      escapeLines filename (cl + 1) rest

/-- `escape_string` -/
def Block.escapeString (b : Block) : Str := escapeLines b.filename b.start (linesOf b.contents)

/-- `contents[from..strlen(contents)-3]` -/
def Block.inner (b : Block) (start : Nat) : Str := slice b.contents start (b.contents.length - 2)

/-- `render` of everything but a directive. -/
def Block.render (b : Block) : Str :=
  let header := "// ".toList ++ Nat.toDigits 10 b.start ++ " - ".toList ++
    Nat.toDigits 10 b.stop ++ "\n".toList ++ lineDirective b.start b.filename
  match b.getType with
  | .text => "\x7b\n".toList ++ b.escapeString ++ "\x7d\n".toList
  | .declaration => header ++ b.inner 3
  | .inline => header ++ "out->add((string)(".toList ++ trimAllWhites (b.inner 3) ++ "));".toList
  | _ => header ++ trimAllWhites (b.inner 2) ++ "\n".toList

/-! ## Directives -/

/-- `[A-Za-z0-9\-]` -/
def isKeywordChar (c : Char) : Bool := c.isAlphanum || c = '-'

/-- `parse_directive` up to the switch: the keyword, and what stands behind it. -/
def splitDirective (exp : Str) : Except Fault (Str × Str) :=
  let exp := trimAllWhites exp
  if '\n' ∈ exp then .error directiveFormat
  else
    match exp.dropWhile isKeywordChar with
    | ' ' :: rest => .ok (exp.takeWhile isKeywordChar, rest)
    | _ => .error directiveFormat

/-- `sscanf(exp, "%*s" + start + "%s\"%*s", value)` -/
def quotedValue (start exp : Str) : Option Str :=
  (cut exp start).bind fun found => (cut found.2 ['"']).map Prod.fst

/-- `process_include` behind the count. -/
def readInclude (site : Site) (exp : Str) : Except Stop (Option (List Block)) :=
  match quotedValue "file=\"".toList exp with
  | none => .error (.thrown includeFormat)
  | some [] => .error (.thrown .index)
  | some (_ :: rest) =>
    -- `file[0] = '/'` is an assignment: every name becomes absolute
    let file := '/' :: rest
    let realfile := site.appendPath site.documentRoot
      (List.intercalate ['/'] ((components file).filter (· ≠ [])))
    match site.readFile realfile with
    | .error message => .error (.thrown (.stdio message))
    | .ok none => .ok none
    | .ok (some contents) =>
      match pspToBlocks contents file with
      | none => .error .never
      | some x => .ok (some x)

def Compiler.processInclude (site : Site) (c : Compiler) (exp : Str) :
    Compiler × Except Stop (Option (List Block)) :=
  if c.includes > maxIncludes then (c, .error (.thrown tooManyIncludes))
  else ({ c with includes := c.includes + 1 }, readInclude site exp)

def processContenttype (exp : Str) : Except Stop (Option (List Block)) :=
  match quotedValue "type=\"".toList exp with
  | none => .error (.thrown contentTypeFormat)
  | some t =>
    .ok (some [{ kind := .pike
                 contents := "<% __content_type = \"".toList ++ t ++ "\"; %>".toList
                 filename := [], start := 0, stop := 0 }])

def Compiler.parseDirective (site : Site) (c : Compiler) (exp : Str) :
    Compiler × Except Stop (Option (List Block)) :=
  match splitDirective exp with
  | .error fault => (c, .error (.thrown fault))
  | .ok (keyword, exp) =>
    if keyword = "include".toList then c.processInclude site exp
    else if keyword = "content-type".toList then (c, processContenttype exp)
    else (c, .error (.thrown (unknownDirective keyword)))

/-! ## Rendering -/

/-- `({ pikescript, header })` -/
structure Output where
  pikescript : Str
  header : Str
  deriving DecidableEq

/-- A block that is no directive goes to the end of the header or of the script. -/
def Output.add (out : Output) (b : Block) : Output :=
  if b.getType = .declaration then { out with header := out.header ++ b.render }
  else { out with pikescript := out.pikescript ++ b.render }

/-- The `foreach` of `render_psp`, with the call it makes of itself. -/
def renderBlocks (site : Site)
    (nested : Compiler → List Block → Output → Compiler × Except Stop Output) :
    Compiler → List Block → Output → Compiler × Except Stop Output
  | c, [], out => (c, .ok out)
  | c, e :: contents, out =>
    if e.getType = .directive then
      match c.parseDirective site (e.inner 3) with
      | (c, .error stop) => (c, .error stop)
      | (c, .ok none) => renderBlocks site nested c contents out
      | (c, .ok (some ren)) =>
        match nested c ren out with
        | (c, .error stop) => (c, .error stop)
        | (c, .ok out) => renderBlocks site nested c contents out
    else renderBlocks site nested c contents (out.add e)

/-- `render_psp`, with at most so many calls nested. -/
def renderPsp (site : Site) : Nat → Compiler → List Block → Output → Compiler × Except Stop Output
  | 0, c, _, _ => (c, .error .tooDeep)
  | depth + 1, c, contents, out => renderBlocks site (renderPsp site depth) c contents out

/-- The page, a call for each include that the guard lets through, and one for a content type. -/
def maxDepth : Nat := maxIncludes + 3

/-- The script around the blocks; start-caudium defines `ROXEN`. -/
def Output.script (out : Output) : Str :=
  out.header ++ "\n\n".toList ++
    ("private string __content_type = \"text/html\";\n".toList ++
      "string|mapping parse(RequestID request)\x7b\n".toList ++
      "String.Buffer out = String.Buffer();\n".toList ++
      "object conf = request->conf;\n".toList ++ out.pikescript ++
      "return HTTP.string_answer(out->get(), __content_type);\n \x7d\n".toList)

/-- `parse_psp` -/
def Compiler.parsePsp (site : Site) (c : Compiler) (file realname : Str) :
    Compiler × Except Stop Str :=
  match pspToBlocks file realname with
  | none => (c, .error .never)
  | some contents =>
    match renderPsp site maxDepth c contents { pikescript := [], header := [] } with
    | (c, .error stop) => (c, .error stop)
    | (c, .ok out) => (c, .ok out.script)

/-! ## The module -/

/-- A page as the module gets it. -/
structure Page where
  code : Str
  realfile : Str
  deriving DecidableEq

/-- The module: its compiler, if there is one by now, and the last call with its result. -/
structure PspModule where
  compiler : Option Compiler
  last : Option (Page × Except Stop Str)

def PspModule.init : PspModule := { compiler := none, last := none }

/-- psp.pike's `parse_psp`. -/
def PspModule.parsePsp (site : Site) (m : PspModule) (page : Page) : PspModule :=
  let compiler := m.compiler.getD Compiler.new
  let r := compiler.parsePsp site page.code page.realfile
  { compiler := some r.1, last := some (page, r.2) }

end Caudium.Psp
