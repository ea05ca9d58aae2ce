import Caudium.Lib.Mapping
import Mathlib.Data.Set.Function
import Mathlib.Data.List.Infix

/-!
# Cache mappings, hashes and paths

What `cachelib` builds and the two tiers keep is one kind of mapping (`Meta`):
an object with its name, its type, its size and its bookkeeping. A tier files it
under the md5 of its name in hexadecimal; the disk tier under two storage keys
made of that hash (`objectPath`, `metaPath`).

What the server takes from elsewhere (the digest, `encode_value`, the image
coder) is a parameter, `Env`. `Lawful` is what the cache relies on of its
coders; that the digest does not collide is a hypothesis about the names a
result is about, never about all names. With it the hashes of those names are
different (`getHash_inj`), and so are all the paths.
-/

namespace Caudium.CachePmod

open Lib (Str Mapping)

/-- `meta->type`. -/
inductive Kind where
  | stdio
  /-- "variable". -/
  | var
  | image
  | other
  deriving DecidableEq, Repr

/-- A value other than 0 in `meta->object`: a file that reads as `data`, the
string read from a file, or anything else. -/
inductive Object (V S : Type) where
  | file (data : S)
  | data (s : S)
  | value (v : V)
  deriving DecidableEq, Repr

/-- A cache mapping. An `object` of `none` is 0 or no object; an `expires`, a
`create_time` and a `last_retrieval` of 0 are not set; `program` is `_program`. -/
structure Meta (V S : Type) where
  name : Str
  object : Option (Object V S)
  type : Kind
  size : Int
  expires : Int
  diskCache : Bool
  program : Bool
  createTime : Int
  lastRetrieval : Int
  hits : Nat
  hash : Option Str
  deriving DecidableEq, Repr

/-- What `sprintf("%t", value)` says, as far as `cachelib` looks at it. -/
inductive PikeType where
  | float
  | int
  | array
  | multiset
  | mapping
  | object
  | function
  | program
  | other
  deriving DecidableEq, Repr

/-- What the cache takes from elsewhere: the digest, the value coder for objects
and for cache mappings (`none` is a throw, or a result of 0), the size of a
string, whether a value casts to a program, the image coder, the coder for the
expiration data, `Regexp(regexp)->match(string)`, the type of a value. -/
structure Env (V S : Type) where
  hashMd5 : Str → List UInt8
  encodeValue : Option (Object V S) → Option S
  decodeValue : S → Option (Object V S)
  encodeMeta : Meta V S → S
  decodeMeta : S → Option (Meta V S)
  sizeof : S → Nat
  isProgram : Option (Object V S) → Bool
  pnmEncode : Option (Object V S) → Option S
  encodeExpiration : Mapping Str Int → S
  regexpMatch : Str → Str → Bool
  pikeType : Option (Object V S) → PikeType

/-- Decoding gives back what was encoded. -/
structure Env.Lawful {V S : Type} (env : Env V S) : Prop where
  decodeValue : ∀ o s, env.encodeValue o = some s → env.decodeValue s = o
  decodeMeta : ∀ m, env.decodeMeta (env.encodeMeta m) = some m

/-! ## Hashes -/

/-- A hexadecimal digit. -/
def hexDigit (n : Nat) : Char := "0123456789abcdef".toList.getD n '0'

/-- `%02x` of a byte. -/
def hexByte (b : UInt8) : Str := [hexDigit (b.toNat / 16), hexDigit (b.toNat % 16)]

/-- `%@02x` of the bytes. -/
def hex (bytes : List UInt8) : Str := bytes.flatMap hexByte

theorem hexDigit_inj : ∀ m < 16, ∀ n < 16, hexDigit m = hexDigit n → m = n := by decide

theorem hexByte_inj {a b : UInt8} (h : hexByte a = hexByte b) : a = b := by
  simp only [hexByte, List.cons.injEq, and_true] at h
  have ha := a.toNat_lt
  have hb := b.toNat_lt
  have hhigh := hexDigit_inj _ (by omega) _ (by omega) h.1
  have hlow := hexDigit_inj _ (by omega) _ (by omega) h.2
  exact UInt8.toNat_inj.mp (by omega)

theorem hex_inj : ∀ {as bs : List UInt8}, hex as = hex bs → as = bs
  | [], [], _ => rfl
  | [], b :: bs, h => by simp [hex, hexByte] at h
  | a :: as, [], h => by simp [hex, hexByte] at h
  | a :: as, b :: bs, h => by
    have happ : hexByte a ++ hex as = hexByte b ++ hex bs := h
    obtain ⟨hhd, htl⟩ := List.append_inj happ rfl
    rw [hexByte_inj hhd, hex_inj htl]

/-- A hexadecimal digit is neither a '/' nor a ':'. -/
theorem hexDigit_ne : ∀ n < 16, hexDigit n ≠ '/' ∧ hexDigit n ≠ ':' := by decide

theorem mem_hex_ne {bytes : List UInt8} {c : Char} (h : c ∈ hex bytes) : c ≠ '/' ∧ c ≠ ':' := by
  obtain ⟨b, -, hc⟩ := List.mem_flatMap.mp h
  have hb := b.toNat_lt
  simp only [hexByte, List.mem_cons, List.not_mem_nil, or_false] at hc
  rcases hc with rfl | rfl
  · exact hexDigit_ne _ (by omega)
  · exact hexDigit_ne _ (by omega)

namespace Env

variable {V S : Type} (env : Env V S)

/-- `get_hash`. -/
def getHash (name : Str) : Str := hex (env.hashMd5 name)

/-- Names whose digests differ have different hashes. -/
theorem getHash_inj {names : Set Str} (hinj : Set.InjOn env.hashMd5 names) {m n : Str}
    (hm : m ∈ names) (hn : n ∈ names) (h : env.getHash m = env.getHash n) : m = n :=
  hinj hm hn (hex_inj h)

end Env

/-! ## Paths -/

/-- `Stdio.append_path("/", hash, "/object")`. -/
def objectPath (hash : Str) : Str := '/' :: (hash ++ "/object".toList)

/-- `Stdio.append_path("/", hash, "/meta")`. -/
def metaPath (hash : Str) : Str := '/' :: (hash ++ "/meta".toList)

theorem objectPath_inj {h h' : Str} : objectPath h = objectPath h' ↔ h = h' := by
  simp [objectPath]

theorem metaPath_inj {h h' : Str} : metaPath h = metaPath h' ↔ h = h' := by
  simp [metaPath]

/-- The last characters differ. -/
theorem objectPath_ne_metaPath (h h' : Str) : objectPath h ≠ metaPath h' := by
  intro he
  have hlast := congrArg List.getLast? he
  have ho : (objectPath h).getLast? = some 't' := by
    rw [objectPath, ← List.cons_append, List.getLast?_append]
    rfl
  have hm : (metaPath h').getLast? = some 'a' := by
    rw [metaPath, ← List.cons_append, List.getLast?_append]
    rfl
  rw [ho, hm] at hlast
  exact absurd hlast (by decide)

/-- A hash on its own is no path: it has no '/'. -/
theorem getHash_ne_path {V S : Type} (env : Env V S) (name rest : Str) :
    env.getHash name ≠ '/' :: rest := by
  intro h
  have hmem : '/' ∈ env.getHash name := by rw [h]; exact List.mem_cons_self ..
  exact (mem_hex_ne hmem).1 rfl

/-! ## Mappings on their way into a tier -/

namespace Meta

variable {V S : Type}

/-- The four defaults both tiers start a `store` with. -/
def touch (env : Env V S) (now : Int) (m : Meta V S) : Meta V S :=
  { m with
    createTime := if m.createTime ≠ 0 then m.createTime else now
    hash := some (m.hash.getD (env.getHash m.name)) }

/-- `get_stdio`: the string once read becomes a file again. -/
def getStdio (m : Meta V S) : Meta V S :=
  match m.object with
  | some (.data s) => { m with object := some (.file s) }
  | _ => m

end Meta

/-! ## One environment -/

/-- Encoded strings, as what they decode to: a value (a natural number, say) or a
cache mapping. -/
inductive Encoded where
  | value (o : Option (Object Nat Encoded))
  | mapping (m : Meta Nat Encoded)

/-- An environment whose coders keep what they encode, in strings of 8 bytes, and
whose regular expressions are plain text, at the start or anywhere. Its
digest is the md5 of "a", of "in://a" and of the latter's hash, and nothing for
any other name. -/
def sampleEnv : Env Nat Encoded :=
  { hashMd5 := fun name =>
      if name = "a".toList then
        [0x0c, 0xc1, 0x75, 0xb9, 0xc0, 0xf1, 0xb6, 0xa8, 0x31, 0xc3, 0x99, 0xe2, 0x69, 0x77, 0x26,
          0x61]
      else if name = "in://a".toList then
        [0xa1, 0x5b, 0xba, 0x6a, 0xa2, 0x5a, 0xce, 0x8d, 0xf1, 0x88, 0xfa, 0x9d, 0xc6, 0x87, 0x00,
          0x33]
      else if name = "a15bba6aa25ace8df188fa9dc6870033".toList then
        [0xd9, 0x65, 0xc1, 0xb8, 0xa4, 0xcd, 0x3c, 0xbd, 0x59, 0x2b, 0x31, 0x68, 0x22, 0xe4, 0x65,
          0x91]
      else []
    encodeValue := fun o => some (.value o)
    decodeValue := fun s => match s with
      | .value o => o
      | .mapping _ => none
    encodeMeta := .mapping
    decodeMeta := fun s => match s with
      | .mapping m => some m
      | .value _ => none
    sizeof := fun _ => 8
    isProgram := fun _ => false
    pnmEncode := fun _ => none
    encodeExpiration := fun _ => .value none
    regexpMatch := fun regexp key => match regexp with
      | '^' :: text => text.isPrefixOf key
      | text => decide (text <:+: key)
    pikeType := fun _ => .int }

theorem sampleEnv_lawful : sampleEnv.Lawful where
  decodeValue o s h := by
    obtain rfl := Option.some.inj h
    rfl
  decodeMeta _ := rfl

end Caudium.CachePmod
