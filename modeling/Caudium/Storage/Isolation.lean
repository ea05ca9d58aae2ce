import Caudium.Storage.Disk

/-!
# Which keys of the disk backend share a file

In every state reached from an empty directory the indices and the files agree
with `hash_path` (`Placed`): an object lies in the file that its own namespace and
key name. So what `retrieve` answers depends on that one file (`retrieve_spec`),
and a `store` or `unlink` touches one file (`store_spec`, `unlinkKey_spec`). The
file name is made of the namespace and the key put together without anything
between them: two keys disturb each other exactly when that gives the same string.
-/

namespace Caudium.Storage

open Lib (Str Mapping)

namespace Disk

variable {env : DiskEnv} {d : Disk}

/-- The file of a key. -/
def place (env : DiskEnv) (path ns key : Str) : Str := env.appendPath path (hashPath env ns key)

theorem place_inj (hlaw : env.Lawful) {path ns key ns' key' : Str}
    (h : place env path ns key = place env path ns' key') : ns ++ key = ns' ++ key' :=
  hlaw.hash_inj (hlaw.append_inj path h)

theorem place_congr {path ns key ns' key' : Str} (h : ns ++ key = ns' ++ key') :
    place env path ns key = place env path ns' key' := by
  rw [place, place, hashPath, hashPath, h]

/-- An index that names the file of every key it has. -/
def IndexOk (env : DiskEnv) (path : Str) (idx : Mapping Str (Mapping Str Str)) : Prop :=
  ∀ ns key p, copyIn idx ns key = some p → p = place env path ns key

/-- The indices, in memory and on disk, and the files agree with `hash_path`. -/
structure Placed (env : DiskEnv) (d : Disk) : Prop where
  idx : IndexOk env d.path d.idx
  saved : ∀ idx ∈ d.storageIndex, IndexOk env d.path idx
  files : ∀ p s, d.files.lookup p = some s →
    ∃ r, s = env.encode r ∧ p = place env d.path r.namespaceOf r.key

/-- The indices may change, the directory does not. -/
structure SameFiles (env : DiskEnv) (d d' : Disk) : Prop where
  placed : Placed env d'
  path : d'.path = d.path
  files : d'.files = d.files

theorem SameFiles.refl (h : Placed env d) : SameFiles env d d := ⟨h, rfl, rfl⟩

theorem SameFiles.trans {d' d'' : Disk} (h : SameFiles env d d') (h' : SameFiles env d' d'') :
    SameFiles env d d'' :=
  ⟨h'.placed, h'.path.trans h.path, h'.files.trans h.files⟩

/-! ## The indices -/

theorem indexOk_empty (path : Str) : IndexOk env path ∅ := by
  intro ns key p h
  rw [copyIn, AList.lookup_empty] at h
  cases h

theorem indexOk_insert_row {path ns : Str} {idx : Mapping Str (Mapping Str Str)}
    {m : Mapping Str Str} (h : IndexOk env path idx)
    (hm : ∀ key p, m.lookup key = some p → p = place env path ns key) :
    IndexOk env path (idx.insert ns m) := by
  intro ns' key p hp
  rw [copyIn_insert] at hp
  split at hp
  next he => subst he; exact hm key p hp
  next => exact h ns' key p hp

theorem indexOk_erase {path ns : Str} {idx : Mapping Str (Mapping Str Str)}
    (h : IndexOk env path idx) : IndexOk env path (idx.erase ns) := by
  intro ns' key p hp
  rw [copyIn, Lib.Mapping.lookup_erase_ite] at hp
  split at hp
  · cases hp
  · exact h ns' key p hp

/-- A change of the in-memory indices alone. -/
theorem sameFiles_of_idx {d' : Disk} (h : Placed env d) (hidx : IndexOk env d.path d'.idx)
    (hpath : d'.path = d.path) (hfiles : d'.files = d.files)
    (hsaved : d'.storageIndex = d.storageIndex) : SameFiles env d d' where
  placed := {
    idx := by rw [hpath]; exact hidx
    saved := by rw [hpath, hsaved]; exact h.saved
    files := by rw [hpath, hfiles]; exact h.files }
  path := hpath
  files := hfiles

theorem putPath_same (h : Placed env d) {ns key p : Str} (hp : p = place env d.path ns key) :
    SameFiles env d (d.putPath ns key p) := by
  refine sameFiles_of_idx h (indexOk_insert_row h.idx ?_) rfl rfl rfl
  refine Lib.Mapping.forall_insert (fun key' p' hl => ?_) hp
  exact h.idx ns key' p' (by rw [← lookup_rowOf]; exact hl)

theorem putSize_same (h : Placed env d) (ns key : Str) (sz : Int) :
    SameFiles env d (d.putSize ns key sz) := sameFiles_of_idx h h.idx rfl rfl rfl

theorem openIdx_same (h : Placed env d) (ns : Str) : SameFiles env d (d.openIdx ns) := by
  unfold openIdx
  split
  · exact SameFiles.refl h
  · refine sameFiles_of_idx h (indexOk_insert_row h.idx fun key p hl => ?_) rfl rfl rfl
    rw [AList.lookup_empty] at hl
    cases hl

/-- `idx_path` gives the file of the key. -/
theorem idxPath_spec (h : Placed env d) (ns key : Str) (given : Option Str)
    (hgiven : ∀ p ∈ given, p = place env d.path ns key) :
    (d.idxPath env ns key given).1 = place env d.path ns key ∧
      SameFiles env d (d.idxPath env ns key given).2 := by
  have hopen := openIdx_same h ns
  unfold idxPath
  dsimp only
  cases given with
  | some p =>
    have hp : p = place env d.path ns key := hgiven p rfl
    exact ⟨hp, hopen.trans (putPath_same hopen.placed (by rw [hopen.path]; exact hp))⟩
  | none =>
    cases hc : copyIn (d.openIdx ns).idx ns key with
    | some p =>
      have hp := hopen.placed.idx ns key p hc
      rw [hopen.path] at hp
      exact ⟨hp, hopen⟩
    | none =>
      refine ⟨by rw [hopen.path]; rfl, hopen.trans (putPath_same hopen.placed rfl)⟩

theorem idxRm_same (h : Placed env d) (ns : Str) (key : Option Str) :
    SameFiles env d (d.idxRm ns key) := by
  unfold idxRm
  cases key with
  | none =>
    dsimp only
    split
    · exact sameFiles_of_idx h (indexOk_erase h.idx) rfl rfl rfl
    · exact SameFiles.refl h
  | some key =>
    dsimp only
    cases copyIn d.idx ns key with
    | none => exact SameFiles.refl h
    | some p =>
      refine sameFiles_of_idx h (indexOk_insert_row h.idx ?_) rfl rfl rfl
      refine Lib.Mapping.forall_erase fun key' p' hl => ?_
      exact h.idx ns key' p' (by rw [← lookup_rowOf]; exact hl)

/-- `idx_size` opens the size index of the namespace. -/
def openSz (d : Disk) (ns : Str) : Disk :=
  if (d.idxSz.lookup ns).isSome then d else { d with idxSz := d.idxSz.insert ns ∅ }

theorem openSz_same (h : Placed env d) (ns : Str) : SameFiles env d (openSz d ns) := by
  unfold openSz
  split
  · exact SameFiles.refl h
  · exact sameFiles_of_idx h h.idx rfl rfl rfl

theorem idxSize_same (h : Placed env d) (ns key : Str) (data : Option Str) :
    SameFiles env d (d.idxSize env ns key data).2 := by
  have hopen := openSz_same h ns
  unfold idxSize
  rw [← openSz]
  generalize openSz d ns = d' at hopen
  dsimp only
  -- a size that is known stays, another is entered
  split
  · exact hopen
  · cases data with
    | some data => exact hopen.trans (putSize_same hopen.placed ns key _)
    | none =>
      have hpath := (idxPath_spec hopen.placed ns key none (fun _ hp => nomatch hp)).2
      exact hopen.trans (hpath.trans (putSize_same hpath.placed ns key _))

/-! ## What each call does to the files -/

theorem store_spec (h : Placed env d) (ns key value : Str) :
    Placed env (d.store env ns key value) ∧ (d.store env ns key value).path = d.path ∧
      (d.store env ns key value).files = d.files.insert (place env d.path ns key)
        (env.encode { namespaceOf := ns, key := key, value := value }) := by
  obtain ⟨hplace, hpath⟩ := idxPath_spec h ns key none fun _ hp => nomatch hp
  have hsize := idxSize_same hpath.placed ns key
    (some (env.encode { namespaceOf := ns, key := key, value := value }))
  have hsame := hpath.trans hsize
  unfold store
  dsimp only
  refine ⟨⟨hsame.placed.idx, hsame.placed.saved, fun p s hl => ?_⟩, hsame.path, ?_⟩
  · rw [Lib.Mapping.lookup_insert_ite] at hl
    split at hl
    next hp =>
      refine ⟨{ namespaceOf := ns, key := key, value := value }, (Option.some.inj hl).symm, ?_⟩
      show p = place env (((d.idxPath env ns key none).2.idxSize env ns key _).2).path ns key
      rw [hsame.path, hp, hplace]
    next => exact hsame.placed.files p s hl
  · rw [hsame.files, hplace]

theorem placed_erase (h : Placed env d) (p : Str) :
    Placed env { d with files := d.files.erase p } where
  idx := h.idx
  saved := h.saved
  files := Lib.Mapping.forall_erase h.files

theorem unlinkKey_spec (h : Placed env d) (ns key : Str) :
    Placed env (d.unlinkKey env ns key) ∧ (d.unlinkKey env ns key).path = d.path ∧
      (d.unlinkKey env ns key).files = d.files.erase (place env d.path ns key) := by
  obtain ⟨hplace, hpath⟩ := idxPath_spec h ns key none fun _ hp => nomatch hp
  have hsame := hpath.trans (idxRm_same hpath.placed ns (some key))
  unfold unlinkKey
  dsimp only
  refine ⟨placed_erase hsame.placed _, hsame.path, ?_⟩
  rw [hsame.files, hplace]

/-- What the file of a key holds for `retrieve`. -/
def held (env : DiskEnv) (d : Disk) (ns key : Str) : Option Str :=
  (d.files.lookup (place env d.path ns key)).bind fun s => (env.decode s).map Record.value

/-- The answer of `retrieve` is in the file of the key, and the files stay as they are. -/
theorem retrieve_spec (hlaw : env.Lawful) (h : Placed env d) (ns key : Str) :
    (d.retrieve env ns key).1 = held env d ns key ∧ SameFiles env d (d.retrieve env ns key).2 := by
  obtain ⟨hplace, hpath⟩ := idxPath_spec h ns key none fun _ hp => nomatch hp
  unfold retrieve held
  dsimp only
  rw [hpath.files, hplace]
  cases hl : d.files.lookup (place env d.path ns key) with
  | none => exact ⟨rfl, hpath.trans (idxRm_same hpath.placed ns (some key))⟩
  | some s =>
    obtain ⟨r, rfl, -⟩ := h.files _ s hl
    dsimp only [Option.bind_some]
    rw [hlaw.decode_encode]
    exact ⟨rfl, hpath⟩

/-! ## The other calls -/

theorem scanFile_same (hlaw : env.Lawful) (ns : Str) {r : List Str × Disk} (h : Placed env r.2)
    (objpath : Str) : SameFiles env r.2 (scanFile env ns r objpath).2 := by
  unfold scanFile
  cases hl : r.2.files.lookup objpath with
  | none => exact SameFiles.refl h
  | some s =>
    obtain ⟨obj, rfl, hp⟩ := h.files objpath s hl
    rw [Option.bind_some, hlaw.decode_encode]
    -- the file is entered under the key whose file it is
    exact (idxPath_spec h obj.namespaceOf obj.key (some objpath) fun p hmem => by
      rw [← Option.mem_some.mp hmem]; exact hp).2

theorem scan_same (hlaw : env.Lawful) (ns : Str) (ps : List Str) :
    ∀ r : List Str × Disk, Placed env r.2 → SameFiles env r.2 (ps.foldl (scanFile env ns) r).2 := by
  induction ps with
  | nil => exact fun r h => SameFiles.refl h
  | cons p ps ih =>
    intro r h
    have hone := scanFile_same hlaw ns h p
    exact hone.trans (ih _ hone.placed)

theorem list_same (hlaw : env.Lawful) (h : Placed env d) (ns : Str) :
    SameFiles env d (d.list env ns).2 := by
  unfold list
  split
  · exact SameFiles.refl h
  · have hscan := scan_same hlaw ns d.files.keys ([], d) h
    dsimp only
    split
    · refine hscan.trans (sameFiles_of_idx hscan.placed
        (indexOk_insert_row hscan.placed.idx fun key p hl => ?_) rfl rfl rfl)
      rw [AList.lookup_empty] at hl
      cases hl
    · exact hscan

theorem foldl_unlinkKey_placed (ns : Str) (keys : List Str) :
    ∀ d, Placed env d → Placed env (keys.foldl (fun d key => d.unlinkKey env ns key) d) := by
  induction keys with
  | nil => exact fun d h => h
  | cons key keys ih => exact fun d h => ih _ (unlinkKey_spec h ns key).1

theorem unlink_placed (hlaw : env.Lawful) (h : Placed env d) (ns : Str) (key : Option Str) :
    Placed env (d.unlink env ns key) := by
  cases key with
  | some key => exact (unlinkKey_spec h ns key).1
  | none =>
    have hkeys := foldl_unlinkKey_placed ns (d.list env ns).1 _ (list_same hlaw h ns).placed
    exact (idxRm_same hkeys ns none).placed

theorem total_placed (hlaw : env.Lawful) (h : Placed env d) (ns : Str) :
    Placed env (size.total env d ns).2 := by
  have hfold : ∀ (keys : List Str) (r : Int × Disk), Placed env r.2 →
      Placed env (keys.foldl (fun (r : Int × Disk) key =>
        (r.1 + (r.2.idxSize env ns key none).1, (r.2.idxSize env ns key none).2)) r).2 := by
    intro keys
    induction keys with
    | nil => exact fun r h => h
    | cons key keys ih => exact fun r h => ih _ (idxSize_same h ns key none).placed
  have hall := hfold (d.list env ns).1 (0, (d.list env ns).2) (list_same hlaw h ns).placed
  exact ⟨hall.idx, hall.saved, hall.files⟩

theorem size_placed (hlaw : env.Lawful) (h : Placed env d) (ns : Str) :
    Placed env (d.size env ns).2 := by
  unfold size
  split
  · split
    · exact h
    · exact total_placed hlaw h ns
  · exact total_placed hlaw h ns

theorem create_placed (h : Placed env d) : Placed env (d.create env) := by
  have hsaved := h.saved
  unfold create
  cases hs : d.storageIndex with
  | none => exact ⟨indexOk_empty d.path, fun _ hidx => (nomatch hidx), h.files⟩
  | some idx =>
    rw [hs] at hsaved
    refine ⟨hsaved idx rfl, hsaved, fun p s hl => ?_⟩
    dsimp only at hl
    rw [Lib.Mapping.lookup_eraseAll] at hl
    split at hl
    · cases hl
    · exact h.files p s hl

/-! ## Reachable states -/

/-- The states that the calls and restarts lead to from an empty directory. -/
inductive Reachable (env : DiskEnv) : Disk → Prop
  | start (path : Str) : Reachable env ((empty path).create env)
  | store {d : Disk} (ns key value : Str) : Reachable env d → Reachable env (d.store env ns key value)
  | retrieve {d : Disk} (ns key : Str) : Reachable env d → Reachable env (d.retrieve env ns key).2
  | unlink {d : Disk} (ns : Str) (key : Option Str) : Reachable env d →
      Reachable env (d.unlink env ns key)
  | unlinkRegexp {d : Disk} (ns regexp : Str) : Reachable env d →
      Reachable env (d.unlinkRegexp env ns regexp)
  | list {d : Disk} (ns : Str) : Reachable env d → Reachable env (d.list env ns).2
  | size {d : Disk} (ns : Str) : Reachable env d → Reachable env (d.size env ns).2
  | idxSync {d : Disk} : Reachable env d → Reachable env d.idxSync
  | restart {d : Disk} : Reachable env d → Reachable env (d.create env)

theorem empty_placed (path : Str) : Placed env (empty path) where
  idx := indexOk_empty path
  saved _ h := nomatch h
  files p s h := by
    rw [empty, AList.lookup_empty] at h
    cases h

theorem Reachable.placed (hlaw : env.Lawful) (h : Reachable env d) : Placed env d := by
  induction h with
  | start path => exact create_placed (empty_placed path)
  | store ns key value _ ih => exact (store_spec ih ns key value).1
  | retrieve ns key _ ih => exact (retrieve_spec hlaw ih ns key).2.placed
  | unlink ns key _ ih => exact unlink_placed hlaw ih ns key
  | unlinkRegexp ns regexp _ ih =>
    exact foldl_unlinkKey_placed ns _ _ (list_same hlaw ih ns).placed
  | list ns _ ih => exact (list_same hlaw ih ns).placed
  | size ns _ ih => exact size_placed hlaw ih ns
  | idxSync _ ih =>
    exact ⟨ih.idx, fun idx hidx => by rw [← Option.some.inj hidx]; exact ih.idx, ih.files⟩
  | restart _ ih => exact create_placed ih

/-! ## Isolation -/

/-- A stored value is what `retrieve` then answers for every key of the same file. -/
theorem retrieve_store (hlaw : env.Lawful) (h : Placed env d) (ns key value ns' key' : Str) :
    ((d.store env ns key value).retrieve env ns' key').1 =
      if ns' ++ key' = ns ++ key then some value else (d.retrieve env ns' key').1 := by
  obtain ⟨hplaced, hpath, hfiles⟩ := store_spec h ns key value
  rw [(retrieve_spec hlaw hplaced ns' key').1, (retrieve_spec hlaw h ns' key').1, held, held,
    hpath, hfiles, Lib.Mapping.lookup_insert_ite]
  by_cases hsame : ns' ++ key' = ns ++ key
  · rw [if_pos hsame, if_pos (place_congr hsame), Option.bind_some, hlaw.decode_encode]
    rfl
  · rw [if_neg hsame, if_neg fun hp => hsame (place_inj hlaw hp)]

/-- After an `unlink` no key of the same file has a value. -/
theorem retrieve_unlink (hlaw : env.Lawful) (h : Placed env d) (ns key ns' key' : Str) :
    ((d.unlink env ns (some key)).retrieve env ns' key').1 =
      if ns' ++ key' = ns ++ key then none else (d.retrieve env ns' key').1 := by
  obtain ⟨hplaced, hpath, hfiles⟩ := unlinkKey_spec h ns key
  change ((d.unlinkKey env ns key).retrieve env ns' key').1 = _
  rw [(retrieve_spec hlaw hplaced ns' key').1, (retrieve_spec hlaw h ns' key').1, held, held,
    hpath, hfiles, Lib.Mapping.lookup_erase_ite]
  by_cases hsame : ns' ++ key' = ns ++ key
  · rw [if_pos hsame, if_pos (place_congr hsame)]
    rfl
  · rw [if_neg hsame, if_neg fun hp => hsame (place_inj hlaw hp)]

/-- `store` and `unlink` of the first key leave the answers for the second as they are. -/
def Isolated (env : DiskEnv) (ns₁ key₁ ns₂ key₂ : Str) : Prop :=
  ∀ d, Reachable env d → ∀ value,
    ((d.store env ns₁ key₁ value).retrieve env ns₂ key₂).1 = (d.retrieve env ns₂ key₂).1 ∧
    ((d.unlink env ns₁ (some key₁)).retrieve env ns₂ key₂).1 = (d.retrieve env ns₂ key₂).1

/-- An object under the second key, and another stored under the first. -/
theorem not_isolated (hlaw : env.Lawful) {ns₁ key₁ ns₂ key₂ : Str}
    (hsame : ns₁ ++ key₁ = ns₂ ++ key₂) : ¬ Isolated env ns₁ key₁ ns₂ key₂ := by
  intro h
  have hempty := @Reachable.start env []
  have hstored := hempty.store ns₂ key₂ "a".toList
  have hread := (h _ hstored "b".toList).1
  rw [retrieve_store hlaw (hstored.placed hlaw), if_pos hsame.symm,
    retrieve_store hlaw (hempty.placed hlaw), if_pos rfl] at hread
  exact absurd (Option.some.inj hread) (by decide)

/-- A character of a string as "%O" prints it. -/
def escape (c : Char) : Str :=
  if c = '"' then ['\\', '"'] else if c = '\\' then ['\\', '\\']
  else if c = '\n' then ['\\', 'n'] else [c]

/-- A string literal, after its first quote, and what follows it. -/
def literal : Str → Option (Str × Str)
  | [] => none
  | '"' :: r => some ([], r)
  | '\\' :: 'n' :: r => (literal r).map fun t => ('\n' :: t.1, t.2)
  | '\\' :: c :: r => (literal r).map fun t => (c :: t.1, t.2)
  | c :: r => (literal r).map fun t => (c :: t.1, t.2)

theorem literal_escape (c : Char) (r : Str) :
    literal (escape c ++ r) = (literal r).map fun t => (c :: t.1, t.2) := by
  unfold escape
  split
  next h => subst h; simp [literal]
  next hq =>
    split
    next h => subst h; simp [literal]
    next hb =>
      split
      next h => subst h; simp [literal]
      next => simp [literal, hb]

theorem literal_flatMap_escape (s r : Str) :
    literal (s.flatMap escape ++ '"' :: r) = some (s, r) := by
  induction s with
  | nil => rfl
  | cons c s ih => rw [List.flatMap_cons, List.append_assoc, literal_escape, ih]; rfl

/-- What follows the text `t`. -/
def after (t s : Str) : Option Str := if t.isPrefixOf s then some (s.drop t.length) else none

theorem after_append (t r : Str) : after t (t ++ r) = some r := by
  rw [after, if_pos (List.isPrefixOf_iff_prefix.mpr ⟨r, rfl⟩), List.drop_left]

/-- The texts that "%O" puts before the three strings of a record, and at its end. -/
def beforeKey : Str :=
  "/* Storage.Disk */\n\nmapping data = ([ /* 3 elements */\n  \"key\": \"".toList
def beforeNamespace : Str := ",\n  \"namespace\": \"".toList
def beforeValue : Str := ",\n  \"value\": \"".toList
def atEnd : Str := "\n]);\n".toList

def printed (r : Record) : Str :=
  beforeKey ++ (r.key.flatMap escape ++ '"' ::
    (beforeNamespace ++ (r.namespaceOf.flatMap escape ++ '"' ::
      (beforeValue ++ (r.value.flatMap escape ++ '"' :: atEnd)))))

/-- The record of such a text. -/
def parsed (s : Str) : Option Record := do
  let s ← after beforeKey s
  let (key, s) ← literal s
  let s ← after beforeNamespace s
  let (ns, s) ← literal s
  let s ← after beforeValue s
  let (value, _) ← literal s
  pure { namespaceOf := ns, key := key, value := value }

theorem parsed_printed (r : Record) : parsed (printed r) = some r := by
  simp only [parsed, printed, after_append, literal_flatMap_escape, bind, Option.bind_some]
  rfl

/-- An environment with the record's own text form, and file names that are not hashed. -/
def plainEnv : DiskEnv where
  hashMd5 := id
  appendPath path f := path ++ '/' :: f
  encode := printed
  decode := parsed
  reMatch _ _ := false

theorem plainEnv_lawful : plainEnv.Lawful where
  hash_inj := Function.injective_id
  append_inj _ _ _ h := List.tail_eq_of_cons_eq (List.append_cancel_left h)
  decode_encode := parsed_printed

end Disk

end Caudium.Storage
