import Caudium.Dav.Requests

/-!
# What a PROPFIND reports

The files that a PROPFIND visits do not depend on its body (`resources`), and of each the
known properties that were asked for are written in one order with one text (`response`). So a
body is told by the names that it asks for (`answerPropfind_eq`).
-/

namespace Caudium.Dav

open Lib (Str Mapping)
open Config (decimal)

variable {γ : Type} (env : PikeEnv)

/-! ## A file -/

/-- The known properties that are written, in order. -/
def reported : List Str :=
  ["resourcetype".toList, "getcontentlength".toList, "getcontenttype".toList] ++
    properties.map Prod.fst

/-- The text of a date. -/
def dateText (name : Str) (date : Int) : Str :=
  "<lp0:".toList ++ name ++ " xmlns:b=".toList ++
    "\"urn:uuid:c2f41010-65b3-11d1-a29f-00aa00c14882/\"".toList ++
    " b:dt=\"dateTime.rfc1123\">".toList ++ env.httpDate date ++
    "</lp0:".toList ++ name ++ ">\r\n".toList

/-- The text of a known property of a file. -/
def propText (fstat : Stat) (name : Str) : Str :=
  let isDir : Bool := fstat.size < 0
  if name = "resourcetype".toList then
    if isDir then "<D:resourcetype><D:collection/></D:resourcetype>\r\n".toList
    else "<D:resourcetype/>\r\n".toList
  else if name = "getcontentlength".toList then
    if isDir then "<D:getcontentlength></D:getcontentlength>\r\n".toList
    else "<D:getcontentlength>".toList ++ decimal fstat.size ++ "</D:getcontentlength>\r\n".toList
  else if name = "getcontenttype".toList then
    "<D:getcontenttype>".toList ++ fstat.mimeType.getD
      (if isDir then "httpd/unix-directory".toList
        else "application/x-unknown-content-type".toList) ++ "</D:getcontenttype>\r\n".toList
  else (properties.lookup name).elim [] fun date => dateText env name (date fstat)

/-- The response for a file with those of the known properties that `asked` has. -/
def response (asked : Str → Bool) (r : Str × Stat) : Str :=
  let isDir : Bool := r.2.size < 0
  let file := if isDir ∧ r.1.getLast? ≠ some '/' then r.1 ++ "/".toList else r.1
  "<D:response".toList ++ ">\r\n".toList ++ "<D:href>".toList ++ file ++ "</D:href>\r\n".toList ++
    "<D:propstat>\r\n".toList ++ "<D:prop xmlns:lp0=\"DAV:\">\r\n".toList ++
    (reported.filter asked).flatMap (propText env r.2) ++
    "</D:prop>\r\n".toList ++ "<D:status>HTTP/1.1 200 OK</D:status>\r\n".toList ++
    "</D:propstat>\r\n".toList ++ "</D:response>\r\n".toList

theorem flatMap_filter_ite {α β : Type} (p : α → Bool) (f : α → List β) (l : List α) :
    (l.filter p).flatMap f = l.flatMap fun a => if p a then f a else [] := by
  induction l with
  | nil => rfl
  | cons a l ih =>
    rw [List.filter_cons, List.flatMap_cons, ← ih]
    split <;> simp

theorem propText_resourcetype (fstat : Stat) : propText env fstat "resourcetype".toList =
    if decide (fstat.size < 0) then "<D:resourcetype><D:collection/></D:resourcetype>\r\n".toList
    else "<D:resourcetype/>\r\n".toList := by
  unfold propText
  rw [if_pos rfl]

theorem propText_getcontentlength (fstat : Stat) : propText env fstat "getcontentlength".toList =
    if decide (fstat.size < 0) then "<D:getcontentlength></D:getcontentlength>\r\n".toList
    else "<D:getcontentlength>".toList ++ decimal fstat.size ++ "</D:getcontentlength>\r\n".toList
    := by
  have hne : "getcontentlength".toList ≠ "resourcetype".toList := by decide
  unfold propText
  rw [if_neg hne, if_pos rfl]

theorem propText_getcontenttype (fstat : Stat) : propText env fstat "getcontenttype".toList =
    "<D:getcontenttype>".toList ++ fstat.mimeType.getD
      (if decide (fstat.size < 0) then "httpd/unix-directory".toList
        else "application/x-unknown-content-type".toList) ++ "</D:getcontenttype>\r\n".toList := by
  have hne : "getcontenttype".toList ≠ "resourcetype".toList := by decide
  have hne' : "getcontenttype".toList ≠ "getcontentlength".toList := by decide
  unfold propText
  rw [if_neg hne, if_neg hne', if_pos rfl]

/-- The text of a date is that of its name. -/
theorem propText_date (fstat : Stat) {prop : Str × (Stat → Int)} (h : prop ∈ properties) :
    propText env fstat prop.1 = dateText env prop.1 (prop.2 fstat) := by
  rcases List.mem_cons.mp h with rfl | h
  · rfl
  · obtain rfl := List.mem_singleton.mp h
    rfl

theorem flatMap_reported (asked : Str → Bool) (fstat : Stat) :
    (reported.filter asked).flatMap (propText env fstat) =
      (if asked "resourcetype".toList then propText env fstat "resourcetype".toList else []) ++
      (if asked "getcontentlength".toList then propText env fstat "getcontentlength".toList
        else []) ++
      (if asked "getcontenttype".toList then propText env fstat "getcontenttype".toList else []) ++
      properties.flatMap fun prop =>
        if asked prop.1 then dateText env prop.1 (prop.2 fstat) else [] := by
  have hdates : properties.flatMap (fun prop => if asked prop.1 then propText env fstat prop.1
      else []) = properties.flatMap fun prop =>
        if asked prop.1 then dateText env prop.1 (prop.2 fstat) else [] :=
    List.flatMap_congr fun prop hprop => by rw [propText_date env fstat hprop]
  rw [flatMap_filter_ite, reported, List.flatMap_append, List.flatMap_map, hdates,
    List.flatMap_cons, List.flatMap_cons, List.flatMap_cons, List.flatMap_nil, List.append_nil,
    ← List.append_assoc]

/-- Where nothing but known properties were asked for. -/
theorem writeProps_eq (file : Str) (all : Bool) {a : Asked} (hknown : a.known = [])
    (hunknown : a.unknown = []) (hmprops : "propname".toList ∉ a.mprops) (fstat : Stat) :
    writeProps env file all a fstat =
      response env (fun name => all || decide (name ∈ a.mprops)) (file, fstat) := by
  have hdates : (fun prop : Str × (Stat → Int) => if all ∨ prop.1 ∈ a.mprops then
        dateText env prop.1 (prop.2 fstat) else []) =
      fun prop => if all || decide (prop.1 ∈ a.mprops) then dateText env prop.1 (prop.2 fstat)
        else [] := by
    funext prop
    have hiff : (all || decide (prop.1 ∈ a.mprops)) = true ↔ all = true ∨ prop.1 ∈ a.mprops := by
      rw [Bool.or_eq_true, decide_eq_true_eq]
    by_cases h : all = true ∨ prop.1 ∈ a.mprops
    · rw [if_pos h, if_pos (hiff.mpr h)]
    · rw [if_neg h, if_neg (hiff.not.mpr h)]
  have hnone : ¬ a.unknown ≠ [] := fun h => h hunknown
  unfold response writeProps
  dsimp only
  rw [flatMap_reported, if_neg hmprops, if_neg hnone, if_neg hnone, hknown,
    propText_resourcetype, propText_getcontentlength, propText_getcontenttype, ← hdates,
    List.append_nil, List.append_nil, List.append_nil, List.append_nil, ← List.append_assoc,
    ← List.append_assoc, ← List.append_assoc]
  unfold dateText
  rfl

/-- The response tells only what is written. -/
theorem response_congr {asked asked' : Str → Bool} (h : ∀ name ∈ reported, asked name = asked' name)
    (r : Str × Stat) : response env asked r = response env asked' r := by
  have hfilter : reported.filter asked = reported.filter asked' := List.filter_congr h
  unfold response
  rw [hfilter]

/-- The loop over the properties of a body that asks for known ones only. -/
theorem foldl_turn_known (hook : Property → Option Str) : ∀ {ps : List Property} (a : Asked),
    (∀ p ∈ ps, p.prop ∈ davProps ∨ p.prop = "allprop".toList ∨ p.prop = []) →
    ps.foldl (Asked.turn hook) a =
      { a with mprops := a.mprops ++ (ps.map Property.prop).filter (· ∈ davProps) } := by
  intro ps
  induction ps with
  | nil => intro a _; simp
  | cons p ps ih =>
    intro a h
    rw [List.foldl_cons, ih _ fun q hq => h q (List.mem_cons_of_mem p hq), Asked.turn]
    rcases h p List.mem_cons_self with hp | hp
    · have hnone : ¬ (p.prop = "allprop".toList ∨ p.prop = []) := by
        rintro (heq | heq) <;> (rw [heq] at hp; revert hp; decide)
      rw [if_neg hnone, if_pos hp]
      simp [hp]
    · have hnot : p.prop ∉ davProps := by
        rcases hp with heq | heq <;> (rw [heq]; decide)
      rw [if_pos hp]
      simp [hnot]

section

variable (h : WebdavHandler γ) (context : γ) (w : WebDav)

/-- A body of known properties, the name "allprop" and text among them. -/
theorem retrieveProps_props {m : List Property}
    (hm : ∀ p ∈ m, p.prop ∈ davProps ∨ p.prop = "allprop".toList ∨ p.prop = []) (file : Str)
    (fstat : Stat) :
    retrieveProps env h context w file (.props m) (some fstat) =
      .ok (response env (fun name => decide (name ∈ m.map Property.prop)) (file, fstat)) := by
  have hmem : ∀ p, p ∈ env.indices m ↔ p ∈ m := fun p =>
    (env.propertyOrder_perm m.dedup).mem_iff.trans List.mem_dedup
  have hfold := foldl_turn_known (fun p => h.getProperty context p (w.getValue p)) ⟨[], [], []⟩
    fun p hp => hm p ((hmem p).mp hp)
  have hpropname : "propname".toList ∉
      [] ++ ((env.indices m).map Property.prop).filter (· ∈ davProps) := by
    intro hmem
    have hknown := List.of_mem_filter hmem
    revert hknown
    decide
  unfold retrieveProps
  dsimp only
  rw [hfold, writeProps_eq env file false rfl rfl hpropname]
  refine congrArg _ (response_congr env (fun name hname => ?_) _)
  have hknown : name ∈ davProps := by
    revert name
    decide
  rw [Bool.false_or]
  refine decide_eq_decide.mpr ?_
  simp [hknown, hmem]

/-- The empty body. -/
theorem retrieveProps_allprop (p : Property) (file : Str) (fstat : Stat) :
    retrieveProps env h context w file (.allprop (some p)) (some fstat) =
      .ok (response env (fun _ => true) (file, fstat)) := by
  unfold retrieveProps
  dsimp only
  rw [writeProps_eq env file true rfl rfl (by simp)]
  simp

end

/-! ## The files -/

/-- The files and the directories among the entries, as the first loop of
`retrieve_collection_props` sorts them; `none` where a `stat_file` gives nothing. -/
def collect (h : WebdavHandler γ) (colpath : Str) : List (Str × Stat) × Mapping Str Stat →
    List Str → Option (List (Str × Stat) × Mapping Str Stat)
  | r, [] => some r
  | (files, fstats), entry :: rest =>
    let path := entryPath colpath entry
    match h.statFile path with
    | none => none
    | some fstat =>
      if 0 ≤ fstat.size then collect h colpath (files ++ [(path, fstat)], fstats) rest
      else collect h colpath (files, fstats.insert path fstat) rest

/-- A directory as the second loop reports it. -/
def asDirectory (fstats : Mapping Str Stat) (f : Str) : Option (Str × Stat) :=
  (fstats.lookup f).map fun fstat => (if f.getLast? ≠ some '/' then f ++ "/".toList else f, fstat)

/-- All that a PROPFIND reports on, in order; `none` where it is not answered with a
multistatus. -/
def resources (h : WebdavHandler γ) (url depth : Str) : Option (List (Str × Stat)) :=
  match h.statFile url with
  | none => none
  | some fstat =>
    if fstat.size < 0 ∧ depth ≠ "0".toList then
      (h.getDirectory url).bind fun directory =>
        (collect h url ([], ∅) directory).map fun r =>
          r.1 ++ (env.pathOrder r.2.keys).filterMap (asDirectory r.2) ++ [(url, fstat)]
    else some [(url, fstat)]

/-- The multistatus body. -/
def page (asked : Str → Bool) (rs : List (Str × Stat)) : Str :=
  "<?xml version=\"1.0\" encoding=\"utf-8\"?>\r\n".toList ++
    "<D:multistatus xmlns:D=\"DAV:\">\r\n".toList ++ rs.flatMap (response env asked) ++
    "</D:multistatus>\r\n".toList

theorem page_congr {asked asked' : Str → Bool} (h : ∀ name ∈ reported, asked name = asked' name)
    (rs : List (Str × Stat)) : page env asked rs = page env asked' rs := by
  have hrs : rs.flatMap (response env asked) = rs.flatMap (response env asked') :=
    List.flatMap_congr fun r _ => response_congr env h r
  unfold page
  rw [hrs]

section

variable {env} {h : WebdavHandler γ} {context : γ} {w : WebDav} {xmlbody : XmlBody}
  {asked : Str → Bool}
  (hprops : ∀ file fstat, retrieveProps env h context w file xmlbody (some fstat) =
    .ok (response env asked (file, fstat)))

include hprops

theorem retrieveFiles_eq (colpath : Str) (directory : List Str) :
    ∀ (files : List (Str × Stat)) (fstats : Mapping Str Stat),
      retrieveFiles env h context w colpath xmlbody (files.flatMap (response env asked), fstats)
        directory = match collect h colpath (files, fstats) directory with
          | none => .error .interpreter
          | some r => .ok (r.1.flatMap (response env asked), r.2) := by
  induction directory with
  | nil => exact fun _ _ => rfl
  | cons entry rest ih =>
    intro files fstats
    unfold retrieveFiles collect
    dsimp only
    cases h.statFile (entryPath colpath entry) with
    | none => rfl
    | some fstat =>
      have hmore := ih (files ++ [(entryPath colpath entry, fstat)]) fstats
      rw [List.flatMap_append, List.flatMap_cons, List.flatMap_nil, List.append_nil] at hmore
      dsimp only
      rw [hprops]
      by_cases hfile : 0 ≤ fstat.size
      · rw [if_pos hfile, if_pos hfile]
        exact hmore
      · rw [if_neg hfile, if_neg hfile]
        exact ih files (fstats.insert (entryPath colpath entry) fstat)

theorem retrieveDirs_eq (fstats : Mapping Str Stat) (paths : List Str) :
    ∀ response' : Str, (∀ f ∈ paths, (fstats.lookup f).isSome) →
      retrieveDirs env h context w xmlbody fstats response' paths =
        .ok (response' ++ (paths.filterMap (asDirectory fstats)).flatMap (response env asked)) := by
  induction paths with
  | nil =>
    intro response' _
    simp [retrieveDirs]
  | cons f rest ih =>
    intro response' hall
    obtain ⟨fstat, hf⟩ := Option.isSome_iff_exists.mp (hall f List.mem_cons_self)
    have hdir : asDirectory fstats f =
        some (if f.getLast? ≠ some '/' then f ++ "/".toList else f, fstat) := by
      rw [asDirectory, hf, Option.map_some]
    unfold retrieveDirs
    dsimp only
    rw [hf, hprops]
    dsimp only
    rw [ih _ fun g hg => hall g (List.mem_cons_of_mem f hg), List.filterMap_cons_some hdir,
      List.flatMap_cons, List.append_assoc]

/-- A body is told by the names that it asks for. -/
theorem answerPropfind_eq (url depth : Str) :
    answerPropfind env h context w url depth xmlbody =
      match resources env h url depth with
      | some rs => .ok (multiStatus (page env asked rs))
      | none => if h.statFile url = none then .ok (lowAnswer 404 []) else .error .interpreter := by
  unfold answerPropfind resources
  cases h.statFile url with
  | none => rfl
  | some fstat =>
    dsimp only
    rw [hprops]
    by_cases hdir : fstat.size < 0 ∧ depth ≠ "0".toList
    · rw [if_pos hdir, if_pos hdir]
      unfold retrieveCollectionProps
      cases h.getDirectory url with
      | none => rfl
      | some directory =>
        have hfiles := retrieveFiles_eq hprops url directory [] ∅
        rw [List.flatMap_nil] at hfiles
        rw [Option.bind_some]
        dsimp only
        rw [hfiles]
        cases collect h url ([], ∅) directory with
        | none => rfl
        | some r =>
          have hkeys : ∀ f ∈ env.pathOrder r.2.keys, (r.2.lookup f).isSome := by
            intro f hf
            obtain ⟨v, hv⟩ := (Lib.Mapping.mem_keys_iff r.2 f).mp
              ((env.pathOrder_perm r.2.keys).mem_iff.mp hf)
            rw [hv, Option.isSome_some]
          dsimp only
          rw [retrieveDirs_eq hprops r.2 _ _ hkeys]
          dsimp only [Option.map_some, page]
          rw [List.flatMap_append, List.flatMap_append, List.flatMap_cons, List.flatMap_nil,
            List.append_nil]
          simp only [List.append_assoc]
    · rw [if_neg hdir, if_neg hdir]
      dsimp only [page]
      rw [List.flatMap_cons, List.flatMap_nil, List.append_nil, List.append_nil]

end

/-! ## When there is a multistatus -/

/-- The file is there, and if its entries are asked for, they are there. -/
def Listed (h : WebdavHandler γ) (url depth : Str) : Prop :=
  ∃ fstat, h.statFile url = some fstat ∧ (fstat.size < 0 ∧ depth ≠ "0".toList →
    ∃ directory, h.getDirectory url = some directory ∧
      ∀ entry ∈ directory, (h.statFile (entryPath url entry)).isSome)

theorem collect_isSome (h : WebdavHandler γ) (colpath : Str) (directory : List Str) :
    ∀ r, (collect h colpath r directory).isSome ↔
      ∀ entry ∈ directory, (h.statFile (entryPath colpath entry)).isSome := by
  induction directory with
  | nil =>
    intro r
    simp [collect]
  | cons entry rest ih =>
    intro hand
    obtain ⟨files, fstats⟩ := hand
    unfold collect
    dsimp only
    rw [List.forall_mem_cons]
    cases h.statFile (entryPath colpath entry) with
    | none => simp
    | some fstat =>
      dsimp only
      split
      · rw [ih]
        simp
      · rw [ih]
        simp

theorem resources_isSome (h : WebdavHandler γ) (url depth : Str) :
    (resources env h url depth).isSome ↔ Listed h url depth := by
  unfold resources Listed
  cases h.statFile url with
  | none => simp
  | some fstat =>
    dsimp only
    by_cases hdir : fstat.size < 0 ∧ depth ≠ "0".toList
    · rw [if_pos hdir]
      cases h.getDirectory url with
      | none =>
        refine iff_of_false (by simp) ?_
        intro hand
        obtain ⟨fstat', hstat, hlisted⟩ := hand
        obtain rfl := Option.some.inj hstat
        obtain ⟨directory, hdirectory, -⟩ := hlisted hdir
        cases hdirectory
      | some directory =>
        rw [Option.bind_some, Option.isSome_map, collect_isSome]
        constructor
        · intro hall
          exact ⟨fstat, rfl, fun _ => ⟨directory, rfl, hall⟩⟩
        · intro hand
          obtain ⟨fstat', hstat, hlisted⟩ := hand
          obtain rfl := Option.some.inj hstat
          obtain ⟨directory', hdirectory, hall⟩ := hlisted hdir
          obtain rfl := Option.some.inj hdirectory
          exact hall
    · rw [if_neg hdir]
      exact iff_of_true rfl ⟨fstat, rfl, fun h => absurd h hdir⟩

/-- There is at least the file itself. -/
theorem resources_ne_nil {h : WebdavHandler γ} {url depth : Str} {rs : List (Str × Stat)}
    (hrs : resources env h url depth = some rs) : rs ≠ [] := by
  unfold resources at hrs
  cases hstat : h.statFile url with
  | none =>
    rw [hstat] at hrs
    cases hrs
  | some fstat =>
    rw [hstat] at hrs
    dsimp only at hrs
    split at hrs
    · rw [Option.bind_eq_some_iff] at hrs
      obtain ⟨directory, -, hmap⟩ := hrs
      obtain ⟨r, -, rfl⟩ := Option.map_eq_some_iff.mp hmap
      simp
    · simp only [Option.some.injEq] at hrs
      simp [← hrs]

/-! ## A page tells what was asked for -/

theorem response_lt {asked : Str → Bool} (hnone : ∀ name ∈ reported, asked name = false)
    (r : Str × Stat) :
    (response env asked r).length < (response env (fun _ => true) r).length := by
  have hempty : (reported.filter asked).flatMap (propText env r.2) = [] := by
    rw [List.filter_eq_nil_iff.mpr fun name hname => by rw [hnone name hname]; decide]
    rfl
  have htype : propText env r.2 "resourcetype".toList ≠ [] := by
    rw [propText_resourcetype]
    split <;> decide
  have hpos : 0 < (reported.flatMap (propText env r.2)).length := by
    have hmem : "resourcetype".toList ∈ reported := List.mem_cons_self
    exact List.length_pos_of_ne_nil fun hnil => htype (List.flatMap_eq_nil_iff.mp hnil _ hmem)
  unfold response
  rw [hempty, List.filter_true]
  simp only [List.length_append, List.length_nil]
  omega

/-- A page without properties is not the one with all of them. -/
theorem page_ne {asked : Str → Bool} (hnone : ∀ name ∈ reported, asked name = false)
    {rs : List (Str × Stat)} (hrs : rs ≠ []) : page env asked rs ≠ page env (fun _ => true) rs := by
  have hle : ∀ rs : List (Str × Stat), (rs.flatMap (response env asked)).length ≤
      (rs.flatMap (response env fun _ => true)).length := by
    intro rs
    induction rs with
    | nil => simp
    | cons r rs ih =>
      have hlt := response_lt env hnone r
      rw [List.flatMap_cons, List.flatMap_cons, List.length_append, List.length_append]
      omega
  intro heq
  have hlen := congrArg List.length heq
  obtain ⟨r, rs, rfl⟩ := List.exists_cons_of_ne_nil hrs
  have hlt := response_lt env hnone r
  have hrest := hle rs
  unfold page at hlen
  simp only [List.length_append, List.flatMap_cons] at hlen
  omega

end Caudium.Dav
