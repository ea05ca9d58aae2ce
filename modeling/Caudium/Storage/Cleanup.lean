import Caudium.Storage.Isolation
import Caudium.Lib.Combine

/-!
# The clean-up of the disk backend at its start

`create` is to remove the files of the directory that the index does not have. It lists them by
their full paths, compares these with the values of the index, and then puts the path of the
directory in front of them once more. That is another file, unless the path has no names of its own
(`appendPath_twice`): elsewhere nothing is removed, and a file without an entry stays
(`cleaned_iff`).
-/

namespace Caudium.Storage

open Lib (Str Mapping FileName Settled place)

/-- The index has the path under some key. -/
def Indexed (idx : Mapping Str (Mapping Str Str)) (p : Str) : Prop :=
  ∃ ns m key, idx.lookup ns = some m ∧ m.lookup key = some p

/-- A path without names: it leads to the root, to where the server was started or up from there. -/
def Rooted (path : Str) : Prop := ∀ c ∈ (place path).names, c = ['.', '.']

instance (path : Str) : Decidable (Rooted path) := List.decidableBAll _ _

/-- The backend on a disk with Unix paths. -/
def DiskEnv.unix (env : DiskEnv) : DiskEnv := { env with appendPath := Lib.appendPath }

namespace Disk

variable {env : DiskEnv} {d : Disk}

/-- The files are those of the directory. -/
def InDirectory (d : Disk) : Prop :=
  ∀ p, (d.files.lookup p).isSome → ∃ n, FileName n ∧ p = Lib.appendPath d.path n

/-- Behind a `create` there are the files that were there and that the index has. -/
def Cleaned (env : DiskEnv) (d : Disk) (idx : Mapping Str (Mapping Str Str)) : Prop :=
  ∀ p s, (d.create env.unix).files.lookup p = some s ↔ d.files.lookup p = some s ∧ Indexed idx p

theorem mem_values {idx : Mapping Str (Mapping Str Str)} {p : Str} :
    p ∈ (idx.entries.flatMap fun e => e.2.entries.map fun e' => e'.2) ↔ Indexed idx p := by
  constructor
  · intro h
    obtain ⟨⟨ns, m⟩, hm, hp⟩ := List.mem_flatMap.mp h
    obtain ⟨⟨key, p'⟩, hkey, rfl⟩ := List.mem_map.mp hp
    exact ⟨ns, m, key, AList.mem_lookup_iff.mpr hm, AList.mem_lookup_iff.mpr hkey⟩
  · intro ⟨ns, m, key, hm, hp⟩
    exact List.mem_flatMap.mpr ⟨⟨ns, m⟩, AList.mem_lookup_iff.mp hm,
      List.mem_map.mpr ⟨⟨key, p⟩, AList.mem_lookup_iff.mp hp, rfl⟩⟩

/-- The files `create` means to remove. -/
def stray (d : Disk) (idx : Mapping Str (Mapping Str Str)) : List Str :=
  d.files.keys.filter fun p =>
    !(idx.entries.flatMap fun e => e.2.entries.map fun e' => e'.2).contains p

theorem mem_stray {idx : Mapping Str (Mapping Str Str)} {p : Str} :
    p ∈ d.stray idx ↔ (d.files.lookup p).isSome ∧ ¬ Indexed idx p := by
  rw [stray, List.mem_filter, AList.lookup_isSome, AList.mem_keys, Bool.not_eq_true',
    List.contains_eq_mem, decide_eq_false_iff_not, mem_values]

theorem files_create {idx : Mapping Str (Mapping Str Str)} (hidx : d.storageIndex = some idx) :
    (d.create env.unix).files = d.files.eraseAll ((d.stray idx).map (Lib.appendPath d.path)) := by
  rw [create, hidx]
  rfl

/-- **Where the path is put in front once more.** -/
theorem append_again {path n : Str} (hn : FileName n) :
    if Rooted path then Lib.appendPath path (Lib.appendPath path n) = Lib.appendPath path n
    else ∀ m, FileName m → Lib.appendPath path (Lib.appendPath path n) ≠ Lib.appendPath path m := by
  obtain ⟨down, up, hset, hnames⟩ := Lib.place_settled path
  rw [Lib.appendPath_twice hset hnames hn]
  have hplain : ∀ c ∈ down ++ up, '/' ∉ c := by
    intro c hc
    rcases List.mem_append.mp hc with hc | hc
    · exact (hset.names c hc).noSlash
    · rw [hset.dots c hc]
      decide
  split
  next hroot =>
    have hdown : down = [] := by
      by_contra hne
      obtain ⟨c, hc⟩ := List.exists_mem_of_ne_nil down hne
      exact (hset.names c hc).noDots.2.2 (hroot c (hnames ▸ List.mem_append_left up hc))
    rw [hdown, Lib.appendPath_name path hn]
    rfl
  next hroot =>
    intro m hm heq
    rw [Lib.appendPath_name path hm, hnames] at heq
    have hlist := Lib.render_inj (List.cons_ne_nil _ _) (List.cons_ne_nil _ _)
      (by
        intro c hc
        rcases List.mem_cons.mp hc with rfl | hc
        · exact hn.noSlash
        · rcases List.mem_append.mp hc with hc | hc
          · exact (hset.names c hc).noSlash
          · exact hplain c hc)
      (by
        intro c hc
        rcases List.mem_cons.mp hc with rfl | hc
        · exact hm.noSlash
        · exact hplain c hc) heq
    have hlen := congrArg List.length hlist
    simp only [List.length_cons, List.length_append] at hlen
    have hdown : down = [] := List.length_eq_zero_iff.mp (by omega)
    refine hroot fun c hc => hset.dots c ?_
    rwa [hnames, hdown] at hc

/-- **What the clean-up comes to**: all it should, where the path has no names, and nothing
anywhere else. -/
theorem cleaned_iff {idx : Mapping Str (Mapping Str Str)} (hdir : d.InDirectory)
    (hidx : d.storageIndex = some idx) : Cleaned env d idx ↔
      Rooted d.path ∨ ∀ p, (d.files.lookup p).isSome → Indexed idx p := by
  have hagain : ∀ p ∈ d.stray idx, if Rooted d.path then Lib.appendPath d.path p = p
      else ∀ m, FileName m → Lib.appendPath d.path p ≠ Lib.appendPath d.path m := by
    intro p hp
    obtain ⟨n, hn, rfl⟩ := hdir p (mem_stray.1 hp).1
    exact append_again hn
  unfold Cleaned
  simp only [files_create hidx, Lib.Mapping.lookup_eraseAll]
  by_cases hroot : Rooted d.path
  · simp only [hroot, if_true] at hagain
    have hsame : (d.stray idx).map (Lib.appendPath d.path) = d.stray idx := by
      rw [List.map_congr_left hagain, List.map_id']
    rw [hsame]
    refine iff_of_true (fun p s => ?_) (Or.inl hroot)
    by_cases hp : p ∈ d.stray idx
    · rw [if_pos hp]
      exact iff_of_false nofun fun h => (mem_stray.1 hp).2 h.2
    · rw [if_neg hp]
      refine ⟨fun h => ⟨h, ?_⟩, And.left⟩
      by_contra hnot
      exact hp (mem_stray.2 ⟨by rw [h]; rfl, hnot⟩)
  · simp only [hroot, if_false] at hagain
    -- nothing of what is removed is a file of the directory
    have hkept : ∀ p, (d.files.lookup p).isSome →
        p ∉ (d.stray idx).map (Lib.appendPath d.path) := by
      intro p hp hmem
      obtain ⟨q, hq, he⟩ := List.mem_map.mp hmem
      obtain ⟨n, hn, rfl⟩ := hdir p hp
      exact hagain q hq n hn he
    constructor
    · intro h
      refine Or.inr fun p hp => ?_
      obtain ⟨s, hs⟩ := Option.isSome_iff_exists.mp hp
      exact ((h p s).mp (by rw [if_neg (hkept p hp), hs])).2
    · intro h p s
      have hall := h.resolve_left hroot
      constructor
      · intro hs
        split at hs
        next => cases hs
        next => exact ⟨hs, hall p (by rw [hs]; rfl)⟩
      · intro ⟨hs, _⟩
        rw [if_neg (hkept p (by rw [hs]; rfl)), hs]

/-- The directory "/d" with one file, and an index that has nothing. -/
def oneStray : Disk :=
  { empty "/d".toList with
    files := (∅ : Mapping Str Str).insert "/d/x".toList "".toList
    storageIndex := some ∅ }

theorem oneStray_inDirectory : oneStray.InDirectory := by
  intro p hp
  refine ⟨"x".toList, ⟨by decide, by decide⟩, ?_⟩
  rw [oneStray, Lib.Mapping.lookup_insert_ite] at hp
  split at hp
  next he => rw [he]; decide
  next => cases hp

theorem cleaned_iff_oneStray : Cleaned plainEnv oneStray ∅ ↔
    Rooted oneStray.path ∨ ∀ p, (oneStray.files.lookup p).isSome → Indexed ∅ p :=
  cleaned_iff oneStray_inDirectory rfl

/-- The file stays: what is removed is "/d/d/x". -/
theorem stray_stays : ¬ Cleaned plainEnv oneStray ∅ := by
  intro h
  have hthere : (oneStray.create plainEnv.unix).files.lookup "/d/x".toList = some "".toList := by
    decide
  obtain ⟨ns, m, key, hm, -⟩ := ((h _ _).mp hthere).2
  rw [AList.lookup_empty] at hm
  cases hm

end Disk

end Caudium.Storage
