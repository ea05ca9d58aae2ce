import Caudium.Storage.SizeIndex
import Caudium.Lib.Runs

/-!
# The size index of the disk backend

The size of an object is in its file, in `idx_sz` and, summed up by namespace, in `_size`. What keeps
the second in step with the first is `idx_size`, which a `store` calls before it writes: a size that
is there already stays as it is, so an object that is stored once more keeps its old size. Nothing
but `size` itself writes `_size`, and what it has written stays.

From a state in which all three agree (`Good`) each call has one condition under which they agree
behind it, and only then (`step_sound_iff`): a `store` must not change the length of the file, and a
new object, or one that goes, must not be in a namespace that has been summed up. A key whose file is
that of another key takes part in what happens to the other one.
-/

namespace Caudium.Storage

open Lib (Str Mapping Always EachStep)

namespace Disk

variable {env : DiskEnv} {d : Disk}

/-- The three sizes agree. -/
structure Good (env : DiskEnv) (d : Disk) : Prop where
  kept : Kept env d
  sizes : ∀ ns key, (copyIn d.idx ns key).isSome → ∃ s, s ≠ [] ∧
    d.files.lookup (place env d.path ns key) = some s ∧ szAt d ns key = some (s.length : Int)
  memos : ∀ ns, memo d ns = 0 ∨ memo d ns = rowTotal env d ns

/-- What the size index is for: it has the length of every object's file, and `size` is their sum
over the keys of `list`. -/
structure Sound (env : DiskEnv) (d : Disk) : Prop where
  entries : ∀ ns key s, (copyIn d.idx ns key).isSome →
    d.files.lookup (place env d.path ns key) = some s → szAt d ns key = some (s.length : Int)
  totals : ∀ ns, (d.size env ns).1 =
    ((d.list env ns).1.map fun key => fileLen d (place env d.path ns key)).sum

/-! ## One call -/

/-- A call. -/
inductive Call where
  | store (ns key value : Str)
  | retrieve (ns key : Str)
  | unlink (ns : Str) (key : Option Str)
  | size (ns : Str)
  | list (ns : Str)

/-- One call. -/
def step (env : DiskEnv) (d : Disk) : Call → Option Disk
  | .store ns key value => some (d.store env ns key value)
  | .retrieve ns key => some (d.retrieve env ns key).2
  | .unlink ns key => some (d.unlink env ns key)
  | .size ns => some (d.size env ns).2
  | .list ns => some (d.list env ns).2

/-- The call leaves the sizes right. -/
def Fits (env : DiskEnv) (d : Disk) : Call → Prop
  | .store ns key value =>
    (∀ s, d.files.lookup (place env d.path ns key) = some s →
      s.length = (recordOf env ns key value).length) ∧
    (copyIn d.idx ns key = none → memo d ns = 0)
  | .retrieve ns key =>
    copyIn d.idx ns key = none → d.files.lookup (place env d.path ns key) = none
  | .unlink ns (some key) =>
    (∀ ns' key', (copyIn d.idx ns' key').isSome → ns' ++ key' = ns ++ key → ns' = ns ∧ key' = key) ∧
    ((copyIn d.idx ns key).isSome → memo d ns = 0)
  | .unlink ns none =>
    (∀ key ns' key', (copyIn d.idx ns key).isSome → (copyIn d.idx ns' key').isSome →
      ns' ++ key' = ns ++ key → ns' = ns) ∧
    memo d ns = 0
  | .size _ => True
  | .list _ => True

/-- Good sizes are sound. -/
theorem Good.sound (hlaw : env.Lawful) (h : Good env d) : Sound env d := by
  refine ⟨fun ns key s hkey hs => ?_, fun ns => ?_⟩
  · obtain ⟨s', -, hs', hsz⟩ := h.sizes ns key hkey
    obtain rfl := Option.some.inj (hs.symm.trans hs')
    exact hsz
  · rw [size_fst hlaw h.kept, (list_reads hlaw h.kept ns).1]
    split
    next hne => exact (h.memos ns).resolve_left hne
    next =>
      refine congrArg List.sum (List.map_congr_left fun key hkey => ?_)
      obtain ⟨s, hs, hfile, hsz⟩ := h.sizes ns key ((mem_keys_row ..).mp hkey)
      have hpos := List.length_pos_iff.mpr hs
      have hne : ((some (s.length : Int)).getD 0 : Int) ≠ 0 := by
        show (s.length : Int) ≠ 0
        omega
      rw [sizeValue, hsz, if_pos hne, fileLen, hfile]
      rfl

theorem Good.of_shows {d' : Disk} (h : Good env d) (hkept : Kept env d') (hs : Shows d d') :
    Good env d' := by
  refine ⟨hkept, fun ns key hkey => ?_, fun ns => ?_⟩
  · rw [hs.idx] at hkey
    rw [hs.sz, hs.files, hs.path]
    exact h.sizes ns key hkey
  · have htotal : rowTotal env d' ns = rowTotal env d ns :=
      rowTotal_congr (fun key => by rw [hs.idx]) fun key _ => by
        unfold fileLen
        rw [hs.files, hs.path]
    have hmemo : memo d' ns = memo d ns := by rw [memo, hs.sizes, memo]
    rw [htotal, hmemo]
    exact h.memos ns

theorem Good.not_sized (h : Good env d) {ns key : Str} (hno : copyIn d.idx ns key = none) :
    szAt d ns key = none := by
  by_contra hne
  have hsome := h.kept.sized ns key (Option.isSome_iff_ne_none.mpr hne)
  rw [hno] at hsome
  cases hsome

/-- A size that has been summed up is the sum, where the sizes are sound. -/
theorem Sound.memo_eq (hlaw : env.Lawful) (h : Sound env d) (hkept : Kept env d) {ns : Str}
    (hne : memo d ns ≠ 0) : memo d ns = rowTotal env d ns := by
  have htotal := h.totals ns
  rwa [size_fst hlaw hkept, if_pos hne, (list_reads hlaw hkept ns).1] at htotal

/-- A size in the index is what `idx_size` answers. -/
theorem sizeValue_sized {ns key s : Str} (hne : s ≠ []) (hsz : szAt d ns key = some (s.length : Int))
    (data : Option Str) : sizeValue env d ns key data = (s.length : Int) := by
  have hpos := List.length_pos_iff.mpr hne
  have hnz : ((some (s.length : Int)).getD 0 : Int) ≠ 0 := by
    show (s.length : Int) ≠ 0
    omega
  unfold sizeValue
  rw [hsz, if_pos hnz]
  rfl

/-- The sum of a namespace with one more key. -/
theorem rowTotal_cons (hlaw : env.Lawful) {d d' : Disk} {ns key : Str} (hpath : d'.path = d.path)
    (hno : copyIn d.idx ns key = none)
    (hidx : ∀ k, (copyIn d'.idx ns k).isSome ↔ k = key ∨ (copyIn d.idx ns k).isSome)
    (hfiles : ∀ p, p ≠ place env d.path ns key → d'.files.lookup p = d.files.lookup p) :
    rowTotal env d' ns = fileLen d' (place env d.path ns key) + rowTotal env d ns := by
  have hnot : key ∉ (rowOf d.idx ns).keys := by
    rw [mem_keys_row, hno]
    exact nofun
  have hkeys : ∀ k, k ∈ (rowOf d'.idx ns).keys ↔ k = key ∨ k ∈ (rowOf d.idx ns).keys := by
    intro k
    rw [mem_keys_row, mem_keys_row, hidx]
  rw [rowTotal, hpath, rowSum_cons _ hnot hkeys, rowTotal]
  refine congrArg _ (congrArg List.sum (List.map_congr_left fun k hk => ?_))
  rw [fileLen, hfiles, fileLen]
  intro hp
  exact hnot (List.append_cancel_left (place_inj hlaw hp) ▸ hk)

/-- **No object loses its file**: its size is left behind, in the index or in the sum. -/
theorem Good.file_stays (hlaw : env.Lawful) {d' : Disk} (h : Good env d) (hkept : Kept env d')
    (hsound : Sound env d') {ns : Str} (hidx : ∀ key, copyIn d'.idx ns key = copyIn d.idx ns key)
    (hsz : ∀ key, szAt d' ns key = szAt d ns key) (hsizes : d'.sizes = d.sizes)
    (hpath : d'.path = d.path)
    (hfiles : ∀ p, d'.files.lookup p = none ∨ d'.files.lookup p = d.files.lookup p) {key : Str}
    (hkey : (copyIn d.idx ns key).isSome) :
    d'.files.lookup (place env d.path ns key) ≠ none := by
  intro hgone
  have hmemo := memo_congr hsizes ns
  have hrow : rowTotal env d' ns =
      ((rowOf d.idx ns).keys.map fun key => fileLen d' (place env d.path ns key)).sum := by
    unfold rowTotal
    rw [hpath]
    exact rowSum_congr _ fun key => by rw [mem_keys_row, mem_keys_row, hidx]
  have hlt : rowTotal env d' ns < rowTotal env d ns := by
    rw [hrow]
    refine List.sum_lt_sum _ _ (fun key' _ => ?_) ⟨key, (mem_keys_row ..).mpr hkey, ?_⟩
    · unfold fileLen
      rcases hfiles (place env d.path ns key') with hnone | hsame
      · rw [hnone]
        exact Int.natCast_nonneg _
      · rw [hsame]
    · obtain ⟨s, hs, hfile, -⟩ := h.sizes ns key hkey
      have hpos := List.length_pos_iff.mpr hs
      rw [fileLen, hgone, fileLen, hfile]
      show ((0 : Nat) : Int) < (s.length : Int)
      omega
  by_cases hne : memo d ns = 0
  · have htotal := hsound.totals ns
    rw [size_fst hlaw hkept, hmemo, if_neg (not_not.mpr hne), (list_reads hlaw hkept ns).1] at htotal
    have hvalues : ((rowOf d'.idx ns).keys.map fun key => sizeValue env d' ns key none).sum
        = rowTotal env d ns := by
      have hsome : ∀ key, (copyIn d'.idx ns key).isSome ↔ (copyIn d.idx ns key).isSome := by
        intro key
        rw [hidx]
      rw [rowSum_congr _ (mem_keys_congr hsome)]
      refine congrArg List.sum (List.map_congr_left fun key' hkey' => ?_)
      obtain ⟨s, hs, hfile, hs'⟩ := h.sizes ns key' ((mem_keys_row ..).mp hkey')
      rw [sizeValue_sized hs ((hsz key').trans hs'), fileLen, hfile]
      rfl
    rw [hvalues] at htotal
    rw [htotal] at hlt
    exact absurd hlt (Int.lt_irrefl _)
  · have hold := (h.memos ns).resolve_left hne
    have hnew := hsound.memo_eq hlaw hkept (hmemo ▸ hne)
    omega

section Store

variable {ns key value : Str}

theorem files_store (h : Kept env d) (ns key value p : Str) :
    (d.store env ns key value).files.lookup p =
      if p = place env d.path ns key then some (recordOf env ns key value)
      else d.files.lookup p := by
  rw [(store_reads h ns key value).files, Lib.Mapping.lookup_insert_ite]

/-- Of a file that is written over, the size in the index stays. -/
theorem store_length (h : Good env d) (hsound : Sound env (d.store env ns key value)) {s : Str}
    (hs : d.files.lookup (place env d.path ns key) = some s) :
    s.length = (recordOf env ns key value).length := by
  have hreads := store_reads h.kept ns key value
  obtain ⟨r, rfl, hp⟩ := h.kept.placed.files _ s hs
  have hlisted := h.kept.filed r (hp ▸ hs)
  obtain ⟨s', hne, hs', hsz⟩ := h.sizes _ _ hlisted
  rw [← hp, hs, Option.some.injEq] at hs'
  subst hs'
  have hstill : (copyIn (d.store env ns key value).idx r.namespaceOf r.key).isSome := by
    rw [hreads.idx]
    split
    next => rfl
    next => exact hlisted
  have hwritten : (d.store env ns key value).files.lookup
      (place env (d.store env ns key value).path r.namespaceOf r.key) =
        some (recordOf env ns key value) := by
    rw [files_store h.kept, hreads.path, if_pos hp.symm]
  have hentry := hsound.entries r.namespaceOf r.key _ hstill hwritten
  rw [hreads.sz] at hentry
  split at hentry
  next he =>
    rw [he.1, he.2] at hsz
    rw [sizeValue_sized hne hsz, Option.some.injEq] at hentry
    omega
  next =>
    rw [hsz, Option.some.injEq] at hentry
    omega

/-- A new object is not in a sum. -/
theorem store_memo (hlaw : env.Lawful) (hne : ∀ r, env.encode r ≠ []) (h : Good env d)
    (hsound : Sound env (d.store env ns key value)) (hnew : copyIn d.idx ns key = none) :
    memo d ns = 0 := by
  have hreads := store_reads h.kept ns key value
  have hmemo := memo_congr hreads.sizes ns
  have hlen : 0 < (recordOf env ns key value).length := List.length_pos_iff.mpr (hne _)
  by_contra hnz
  have hold := (h.memos ns).resolve_left hnz
  have hafter := hsound.memo_eq hlaw (kept_store hlaw h.kept ns key value) (hmemo ▸ hnz)
  have hidx : ∀ k, (copyIn (d.store env ns key value).idx ns k).isSome ↔
      k = key ∨ (copyIn d.idx ns k).isSome := by
    intro k
    rw [hreads.idx]
    split
    next he => exact iff_of_true rfl (Or.inl he.2)
    next he => exact (or_iff_right fun hk => he ⟨rfl, hk⟩).symm
  have hrow := rowTotal_cons hlaw hreads.path hnew hidx fun p hp => by
    rw [files_store h.kept, if_neg hp]
  rw [fileLen, files_store h.kept, if_pos rfl, Option.getD_some] at hrow
  omega

theorem store_good (hlaw : env.Lawful) (hne : ∀ r, env.encode r ≠ []) (h : Good env d)
    (hfits : Fits env d (.store ns key value)) : Good env (d.store env ns key value) := by
  obtain ⟨hsame, hnew⟩ := hfits
  have hreads := store_reads h.kept ns key value
  have hfile : ∀ ns' key', (copyIn d.idx ns' key').isSome →
      ∃ s, s ≠ [] ∧ (d.store env ns key value).files.lookup (place env d.path ns' key') = some s ∧
        szAt d ns' key' = some (s.length : Int) := by
    intro ns' key' hkey'
    obtain ⟨s, hs0, hs, hsz⟩ := h.sizes ns' key' hkey'
    rw [files_store h.kept]
    split
    next hp =>
      rw [hp] at hs
      exact ⟨_, hne _, rfl, by rw [hsz, hsame s hs]; rfl⟩
    next => exact ⟨s, hs0, hs, hsz⟩
  have hflen : ∀ ns' key', (copyIn d.idx ns' key').isSome →
      fileLen (d.store env ns key value) (place env d.path ns' key')
        = fileLen d (place env d.path ns' key') := by
    intro ns' key' hkey'
    obtain ⟨s, -, hs, hsz⟩ := hfile ns' key' hkey'
    obtain ⟨s', -, hs', hsz'⟩ := h.sizes ns' key' hkey'
    rw [fileLen, hs, fileLen, hs']
    rw [hsz, Option.some.injEq] at hsz'
    exact hsz'
  refine ⟨kept_store hlaw h.kept ns key value, fun ns' key' hkey' => ?_, fun ns' => ?_⟩
  · rw [hreads.sz, hreads.path]
    by_cases he : ns' = ns ∧ key' = key
    · obtain ⟨rfl, rfl⟩ := he
      rw [if_pos ⟨rfl, rfl⟩, files_store h.kept, if_pos rfl]
      refine ⟨_, hne _, rfl, ?_⟩
      cases hc : copyIn d.idx ns' key' with
      | none =>
        unfold sizeValue
        rw [h.not_sized hc]
        rfl
      | some p =>
        obtain ⟨s, hs0, hs, hsz⟩ := h.sizes ns' key' (by rw [hc]; rfl)
        rw [sizeValue_sized hs0 hsz, hsame s hs]
        rfl
    · rw [if_neg he]
      rw [hreads.idx, if_neg he] at hkey'
      exact hfile ns' key' hkey'
  · rw [memo_congr hreads.sizes]
    by_cases hadded : ns' = ns ∧ copyIn d.idx ns key = none
    · exact Or.inl (hadded.1 ▸ hnew hadded.2)
    · have hrow : rowTotal env (d.store env ns key value) ns' = rowTotal env d ns' := by
        refine rowTotal_congr (fun k => ?_) fun k hk => by rw [hreads.path]; exact hflen ns' k hk
        rw [hreads.idx]
        split
        next he =>
          rw [not_and] at hadded
          rw [he.2, he.1]
          exact iff_of_true rfl (Option.isSome_iff_ne_none.mpr (hadded he.1))
        next => exact Iff.rfl
      rw [hrow]
      exact h.memos ns'

/-- **A `store`** must not change the length of the file, nor add to a sum. -/
theorem store_sound_iff (hlaw : env.Lawful) (hne : ∀ r, env.encode r ≠ []) (h : Good env d)
    (ns key value : Str) :
    (Sound env (d.store env ns key value) → Fits env d (.store ns key value)) ∧
    (Fits env d (.store ns key value) → Good env (d.store env ns key value)) :=
  ⟨fun hsound => ⟨fun _ => store_length h hsound, store_memo hlaw hne h hsound⟩,
    store_good hlaw hne h⟩

end Store

/-- **A `retrieve`** must not enter a key whose file is another one's. -/
theorem retrieve_sound_iff (hlaw : env.Lawful) (h : Good env d) (ns key : Str) :
    (Sound env (d.retrieve env ns key).2 → Fits env d (.retrieve ns key)) ∧
    (Fits env d (.retrieve ns key) → Good env (d.retrieve env ns key).2) := by
  obtain ⟨hkept, hreads⟩ := retrieve_reads hlaw h.kept ns key
  cases hl : d.files.lookup (place env d.path ns key) with
  | none =>
    rw [hl] at hreads
    refine ⟨fun _ _ => hl, fun _ => h.of_shows hkept ?_⟩
    have hno : copyIn d.idx ns key = none := by
      by_contra hc
      obtain ⟨s, -, hs, -⟩ := h.sizes ns key (Option.isSome_iff_ne_none.mpr hc)
      rw [hl] at hs
      cases hs
    refine ⟨fun ns' key' => ?_, fun ns' key' => ?_, hreads.files, hreads.sizes, hreads.path⟩
    · rw [hreads.idx]
      split
      next he => rw [he.1, he.2, hno]
      next => rfl
    · rw [hreads.sz]
      split
      next he => rw [he.1, he.2, h.not_sized hno]
      next => rfl
  | some s =>
    rw [hl] at hreads
    constructor
    · intro hsound hno
      have hentry := hsound.entries ns key s (by rw [hreads.idx, if_pos ⟨rfl, rfl⟩]; rfl)
        (by rw [hreads.files, hreads.path, hl])
      rw [hreads.sz, h.not_sized hno] at hentry
      cases hentry
    · intro hfits
      refine h.of_shows hkept ⟨fun ns' key' => ?_, hreads.sz, hreads.files, hreads.sizes, hreads.path⟩
      rw [hreads.idx]
      split
      next he =>
        cases hc : copyIn d.idx ns key with
        | none =>
          have hnone := hfits hc
          rw [hl] at hnone
          cases hnone
        | some p => rw [he.1, he.2, hc, h.kept.placed.idx ns key p hc]
      next => rfl

section UnlinkKey

variable {ns key : Str}

theorem files_unlinkKey (h : Kept env d) (ns key p : Str) :
    (d.unlink env ns (some key)).files.lookup p =
      if p = place env d.path ns key then none else d.files.lookup p := by
  have hfiles : (d.unlink env ns (some key)).files = _ := (unlinkKey_reads h ns key).files
  rw [hfiles, Lib.Mapping.lookup_erase_ite]

/-- No other key loses its file. -/
theorem unlinkKey_alone (hlaw : env.Lawful) (h : Good env d)
    (hsound : Sound env (d.unlink env ns (some key))) {ns' key' : Str}
    (hkey' : (copyIn d.idx ns' key').isSome) (hsame : ns' ++ key' = ns ++ key) :
    ns' = ns ∧ key' = key := by
  have hreads : Reads (d.unlink env ns (some key)) _ _ _ _ _ := unlinkKey_reads h.kept ns key
  have hkept : Kept env (d.unlink env ns (some key)) := kept_unlinkKey h.kept ns key
  by_cases hns : ns' = ns
  · subst hns
    exact ⟨rfl, List.append_cancel_left hsame⟩
  · have hne : ∀ k, ¬ (ns' = ns ∧ k = key) := fun _ he => hns he.1
    refine absurd ?_ (h.file_stays hlaw hkept hsound
      (fun k => by rw [hreads.idx, if_neg (hne k)]) (fun k => by rw [hreads.sz, if_neg (hne k)])
      hreads.sizes hreads.path (fun p => ?_) hkey')
    · rw [files_unlinkKey h.kept, if_pos (place_congr hsame)]
    · rw [files_unlinkKey h.kept]
      split
      next => exact Or.inl rfl
      next => exact Or.inr rfl

/-- An object that goes is not in a sum. -/
theorem unlinkKey_memo (hlaw : env.Lawful) (h : Good env d)
    (hsound : Sound env (d.unlink env ns (some key))) (hkey : (copyIn d.idx ns key).isSome) :
    memo d ns = 0 := by
  have hreads : Reads (d.unlink env ns (some key)) _ _ _ _ _ := unlinkKey_reads h.kept ns key
  have hkept : Kept env (d.unlink env ns (some key)) := kept_unlinkKey h.kept ns key
  have hmemo := memo_congr hreads.sizes ns
  by_contra hnz
  have hold := (h.memos ns).resolve_left hnz
  have hafter := hsound.memo_eq hlaw hkept (hmemo ▸ hnz)
  obtain ⟨s, hs0, hs, -⟩ := h.sizes ns key hkey
  have hpos := List.length_pos_iff.mpr hs0
  -- The old sum is that of the row that is left, and of the one key.
  have hgone : copyIn (d.unlink env ns (some key)).idx ns key = none := by
    rw [hreads.idx, if_pos ⟨rfl, rfl⟩]
  have hidx : ∀ k, (copyIn d.idx ns k).isSome ↔
      k = key ∨ (copyIn (d.unlink env ns (some key)).idx ns k).isSome := by
    intro k
    rw [hreads.idx]
    split
    next he => exact iff_of_true (he.2 ▸ hkey) (Or.inl he.2)
    next he => exact (or_iff_right fun hk => he ⟨rfl, hk⟩).symm
  have hrow := rowTotal_cons hlaw hreads.path.symm hgone hidx fun p hp => by
    rw [files_unlinkKey h.kept, if_neg (hreads.path ▸ hp)]
  rw [hreads.path, fileLen, hs, Option.getD_some] at hrow
  omega

theorem unlinkKey_good (hlaw : env.Lawful) (h : Good env d)
    (hfits : Fits env d (.unlink ns (some key))) : Good env (d.unlink env ns (some key)) := by
  obtain ⟨halone, hnew⟩ := hfits
  have hreads : Reads (d.unlink env ns (some key)) _ _ _ _ _ := unlinkKey_reads h.kept ns key
  have hstays : ∀ ns' key', (copyIn d.idx ns' key').isSome → ¬ (ns' = ns ∧ key' = key) →
      (d.unlink env ns (some key)).files.lookup (place env d.path ns' key')
        = d.files.lookup (place env d.path ns' key') := by
    intro ns' key' hkey' hne
    rw [files_unlinkKey h.kept, if_neg fun hp => hne (halone ns' key' hkey' (place_inj hlaw hp))]
  refine ⟨kept_unlinkKey h.kept ns key, fun ns' key' hkey' => ?_, fun ns' => ?_⟩
  · rw [hreads.idx] at hkey'
    split at hkey'
    next => cases hkey'
    next hne =>
      rw [hreads.sz, if_neg hne, hreads.path, hstays ns' key' hkey' hne]
      exact h.sizes ns' key' hkey'
  · rw [memo_congr hreads.sizes]
    by_cases hgone : ns' = ns ∧ (copyIn d.idx ns key).isSome
    · exact Or.inl (hgone.1 ▸ hnew hgone.2)
    · have hne : ∀ k, (copyIn d.idx ns' k).isSome → ¬ (ns' = ns ∧ k = key) := by
        intro k hk he
        exact hgone ⟨he.1, by rw [← he.1, ← he.2]; exact hk⟩
      have hrow : rowTotal env (d.unlink env ns (some key)) ns' = rowTotal env d ns' := by
        refine rowTotal_congr (fun k => ?_) fun k hk => ?_
        · rw [hreads.idx]
          split
          next he => exact iff_of_false nofun fun hk => hne k hk he
          next => exact Iff.rfl
        · unfold fileLen
          rw [hreads.path, hstays ns' k hk (hne k hk)]
      rw [hrow]
      exact h.memos ns'

/-- **An `unlink`** must not take the file of another key, nor take from a sum. -/
theorem unlinkKey_sound_iff (hlaw : env.Lawful) (h : Good env d) (ns key : Str) :
    (Sound env (d.unlink env ns (some key)) → Fits env d (.unlink ns (some key))) ∧
    (Fits env d (.unlink ns (some key)) → Good env (d.unlink env ns (some key))) :=
  ⟨fun hsound => ⟨fun _ _ => unlinkKey_alone hlaw h hsound, unlinkKey_memo hlaw h hsound⟩,
    unlinkKey_good hlaw h⟩

end UnlinkKey

/-- **An `unlink`** of a namespace must not take the file of another one's key, and it must not have
been summed up. -/
theorem unlinkAll_sound_iff (hlaw : env.Lawful) (h : Good env d) (ns : Str) :
    (Sound env (d.unlink env ns none) → Fits env d (.unlink ns none)) ∧
    (Fits env d (.unlink ns none) → Good env (d.unlink env ns none)) := by
  obtain ⟨hkept, hidx, hsz, hfiles, hsizes, hpath⟩ := unlink_reads hlaw h.kept ns
  have hmemo := memo_congr hsizes
  have hempty : ∀ key, copyIn (d.unlink env ns none).idx ns key = none := by
    intro key
    rw [hidx, if_pos rfl]
  constructor
  · intro hsound
    constructor
    · intro key ns' key' hkey hkey' hsame
      by_contra hns
      refine absurd ?_ (h.file_stays hlaw hkept hsound
        (fun k => by rw [hidx, if_neg hns]) (fun k => by rw [hsz, if_neg hns]) hsizes hpath
        (fun p => ?_) hkey')
      · rw [hfiles, if_pos ⟨key, (mem_keys_row ..).mpr hkey, place_congr hsame⟩]
      · rw [hfiles]
        split
        next => exact Or.inl rfl
        next => exact Or.inr rfl
    · by_contra hnz
      have hafter := hsound.memo_eq hlaw hkept ((hmemo ns).symm ▸ hnz)
      have hnone : rowTotal env (d.unlink env ns none) ns = 0 := by
        have hkeys : (rowOf (d.unlink env ns none).idx ns).keys = [] := by
          refine List.eq_nil_iff_forall_not_mem.mpr fun key hkey => ?_
          rw [mem_keys_row, hempty] at hkey
          cases hkey
        rw [rowTotal, hkeys]
        rfl
      rw [hmemo, hnone] at hafter
      exact hnz hafter
  · intro ⟨halone, hnew⟩
    have hstays : ∀ ns' key', (copyIn d.idx ns' key').isSome → ns' ≠ ns →
        (d.unlink env ns none).files.lookup (place env d.path ns' key')
          = d.files.lookup (place env d.path ns' key') := by
      intro ns' key' hkey' hns
      rw [hfiles, if_neg]
      intro ⟨key, hkey, hp⟩
      exact hns (halone key ns' key' ((mem_keys_row ..).mp hkey) hkey' (place_inj hlaw hp))
    refine ⟨hkept, fun ns' key' hkey' => ?_, fun ns' => ?_⟩
    · rw [hidx] at hkey'
      split at hkey'
      next => cases hkey'
      next hns =>
        rw [hsz, if_neg hns, hpath, hstays ns' key' hkey' hns]
        exact h.sizes ns' key' hkey'
    · rw [hmemo]
      by_cases hns : ns' = ns
      · exact Or.inl (hns ▸ hnew)
      · have hrow : rowTotal env (d.unlink env ns none) ns' = rowTotal env d ns' := by
          refine rowTotal_congr (fun k => by rw [hidx, if_neg hns]) fun k hk => ?_
          unfold fileLen
          rw [hpath, hstays ns' k hk hns]
        rw [hrow]
        exact h.memos ns'

/-- A `size` keeps its answer, which is the sum. -/
theorem size_good (hlaw : env.Lawful) (h : Good env d) (ns : Str) : Good env (d.size env ns).2 := by
  have hkept := h.kept
  obtain ⟨hsum, hreads⟩ := total_reads hlaw hkept ns
  have hvalue : ∀ key, (copyIn d.idx ns key).isSome →
      some (sizeValue env d ns key none) = szAt d ns key ∧
        sizeValue env d ns key none = fileLen d (place env d.path ns key) := by
    intro key hkey
    obtain ⟨s, hs0, hs, hsz⟩ := h.sizes ns key hkey
    rw [sizeValue_sized hs0 hsz, hsz, fileLen, hs]
    exact ⟨rfl, rfl⟩
  have htotal : Good env (size.total env d ns).2 := by
    have hrow : ∀ ns', rowTotal env (size.total env d ns).2 ns' = rowTotal env d ns' := fun ns' =>
      rowTotal_congr (fun k => by rw [hreads.idx]) fun k _ => by
        unfold fileLen
        rw [hreads.files, hreads.path]
    have hsz : ∀ ns' key, szAt (size.total env d ns).2 ns' key = szAt d ns' key := by
      intro ns' key
      rw [hreads.sz]
      split
      next he => rw [he.1, (hvalue key ((mem_keys_row ..).mp he.2)).1]
      next => rfl
    refine ⟨⟨total_placed hlaw hkept.placed ns, fun r hr => ?_, fun ns' key hs => ?_⟩,
      fun ns' key hkey => ?_, fun ns' => ?_⟩
    · rw [hreads.idx]
      rw [hreads.files, hreads.path] at hr
      exact hkept.filed r hr
    · rw [hsz] at hs
      rw [hreads.idx]
      exact hkept.sized ns' key hs
    · rw [hreads.idx] at hkey
      rw [hsz, hreads.files, hreads.path]
      exact h.sizes ns' key hkey
    · rw [hrow, memo, hreads.sizes, Lib.Mapping.lookup_insert_ite]
      split
      next he =>
        refine Or.inr ?_
        rw [Option.getD_some, hsum, he, rowTotal]
        exact congrArg List.sum (List.map_congr_left fun key hkey =>
          (hvalue key ((mem_keys_row ..).mp hkey)).2)
      next => exact h.memos ns'
  unfold size
  split
  next n _ =>
    split
    next => exact h
    next => exact htotal
  next => exact htotal

/-- **One call**: the sizes are sound behind it exactly when it fits. -/
theorem step_sound_iff (hlaw : env.Lawful) (hne : ∀ r, env.encode r ≠ []) {d d' : Disk}
    (h : Good env d) {c : Call} (hs : step env d c = some d') :
    (Sound env d' ↔ Fits env d c) ∧ (Fits env d c → Good env d') := by
  have hboth : ∀ {d' : Disk}, (Sound env d' → Fits env d c) ∧ (Fits env d c → Good env d') →
      (Sound env d' ↔ Fits env d c) ∧ (Fits env d c → Good env d') := fun h' =>
    ⟨⟨h'.1, fun hfits => (h'.2 hfits).sound hlaw⟩, h'.2⟩
  cases c with
  | store ns key value =>
    obtain rfl := Option.some.inj hs
    exact hboth (store_sound_iff hlaw hne h ns key value)
  | retrieve ns key =>
    obtain rfl := Option.some.inj hs
    exact hboth (retrieve_sound_iff hlaw h ns key)
  | unlink ns key =>
    obtain rfl := Option.some.inj hs
    cases key with
    | some key => exact hboth (unlinkKey_sound_iff hlaw h ns key)
    | none => exact hboth (unlinkAll_sound_iff hlaw h ns)
  | size ns =>
    obtain rfl := Option.some.inj hs
    exact hboth ⟨fun _ => trivial, fun _ => size_good hlaw h ns⟩
  | list ns =>
    obtain rfl := Option.some.inj hs
    exact hboth ⟨fun _ => trivial,
      fun _ => h.of_shows (kept_list hlaw h.kept ns) (list_reads hlaw h.kept ns).2⟩

theorem empty_good (path : Str) : Good env (empty path) := by
  have hno : ∀ ns key, copyIn (empty path).idx ns key = none := fun ns key =>
    copyIn_none (AList.lookup_empty ns) key
  refine ⟨⟨empty_placed path, fun r hr => ?_, fun ns key hs => ?_⟩, fun ns key hkey => ?_,
    fun ns => Or.inl ?_⟩
  · rw [empty, AList.lookup_empty] at hr
    cases hr
  · rw [szAt, empty, AList.lookup_empty] at hs
    cases hs
  · rw [hno] at hkey
    cases hkey
  · rw [memo, empty, AList.lookup_empty]
    rfl

theorem printed_ne_nil (r : Record) : plainEnv.encode r ≠ [] := by
  intro h
  have hback := parsed_printed r
  have hnone : parsed [] = none := by decide
  rw [show printed r = [] from h, hnone] at hback
  cases hback

end Disk

end Caudium.Storage
