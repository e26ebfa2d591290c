import CoffeeTable.Posix.Tree
import CoffeeTable.Server.Links
import CoffeeTable.Transition.Ledger

/-!
# Sequences of requests

The files on the disk are a tree, and the file system answers for it. It may
refuse anything, but what it says is true. Requests of any number of clients
arrive one after another. Each file then holds what was last posted to it, by
whatever spelling of its path, and no page ever shows anything else.
-/

namespace CoffeeTable.Server

open Ecma Transition

abbrev Files := Posix.Tree slash dot JsString

/-- The names that lead to a path from the root. -/
abbrev partsOf (path : JsString) : List JsString := Posix.partsOf slash dot path

/-- What the file system says about normalized paths is true of the tree. -/
structure Truthful (fs : FileSystem) (tree : Files) : Prop where
  directory_of_stat : ∀ path, fs.stat (Posix.normalize slash dot path) = .ok true →
    tree.node (partsOf path) = some .directory
  file_of_read : ∀ path contents,
    fs.readFile (Posix.normalize slash dot path) = .ok contents →
      tree.node (partsOf path) = some (.file contents)
  missing_of_read : ∀ path,
    fs.readFile (Posix.normalize slash dot path) = .error ⟨lit "ENOENT"⟩ →
      tree.node (partsOf path) = none
  writable_of_write : ∀ path content,
    fs.writeFile (Posix.normalize slash dot path) content = .ok () → tree.Writable (partsOf path)

/-- The failure at a path without a node: below a file, or simply missing. -/
def missing (tree : Files) (parts : List JsString) : FsError :=
  if parts.inits.any fun init ↦
      match tree.node init with
      | some (.file _) => true
      | _ => false
  then ⟨lit "ENOTDIR"⟩
  else ⟨lit "ENOENT"⟩

/-- A file system that permits everything that the tree admits. A separator at
the end asks for a directory. -/
def diskOf (tree : Files) : FileSystem where
  stat target :=
    match tree.node (Posix.components slash target) with
    | some .directory => .ok true
    | some (.file _) =>
        if target.getLast? = some slash then .error ⟨lit "ENOTDIR"⟩ else .ok false
    | none => .error (missing tree (Posix.components slash target))
  readdir target :=
    match tree.node (Posix.components slash target) with
    | some .directory => .ok (tree.names (Posix.components slash target))
    | some (.file _) => .error ⟨lit "ENOTDIR"⟩
    | none => .error (missing tree (Posix.components slash target))
  readFile target :=
    match tree.node (Posix.components slash target) with
    | some .directory => .error ⟨lit "EISDIR"⟩
    | some (.file contents) =>
        if target.getLast? = some slash then .error ⟨lit "ENOTDIR"⟩ else .ok contents
    | none => .error (missing tree (Posix.components slash target))
  writeFile target _ :=
    if target.getLast? = some slash then .error ⟨lit "EISDIR"⟩
    else if tree.Writable (Posix.components slash target) then .ok ()
    else if tree.node (Posix.components slash target) = some .directory then .error ⟨lit "EISDIR"⟩
    else .error (missing tree (Posix.components slash target))

theorem truthful_diskOf (tree : Files) : Truthful (diskOf tree) tree := by
  refine ⟨fun path h ↦ ?_, fun path contents h ↦ ?_, fun path h ↦ ?_, fun path content h ↦ ?_⟩ <;>
    simp only [diskOf, Posix.components_normalize] at h
  · split at h
    · assumption
    · split_ifs at h
      cases h
    · cases h
  · split at h
    · cases h
    · split_ifs at h
      cases h
      assumption
    · cases h
  · split at h
    · exact absurd h (by decide)
    · split_ifs at h
      exact absurd h (by simp [lit])
    · assumption
  · split_ifs at h with hslash hwritable
    · exact hwritable

inductive Request where
  | get (file : JsString)
  | post (file content : JsString)

/-- The place of a requested file in the tree. -/
def location (wd : WorkingDirectory) (file : JsString) : List JsString :=
  Posix.components slash (pathJoin wd file)

section Serve

variable (wd : WorkingDirectory) (disk : Files → FileSystem)

/-- The route for posts asks for a name. Without one no handler answers. -/
def answer (tree : Files) : Request → List Access × Option Response
  | .get file => (getEdit wd (disk tree) file).map id some
  | .post file content =>
      if file = [] then ([], none) else (postEdit wd (disk tree) file content).map id some

/-- Only a write that succeeds has an effect. -/
def perform (tree : Files) : Access → Files
  | .writeFile target content =>
      match (disk tree).writeFile target content with
      | .ok () => tree.put (Posix.components slash target) (.file content)
      | .error _ => tree
  | _ => tree

def serve (tree : Files) (request : Request) : Files :=
  (answer wd disk tree request).1.foldl (perform disk) tree

/-- What a request writes, if it is accepted. -/
def written (tree : Files) : Request → List (List JsString × Option (Posix.Node JsString))
  | .get _ => []
  | .post file content =>
      if (answer wd disk tree (.post file content)).2 = some .okay then
        [(location wd file, some (.file content))]
      else []

end Serve

section Steps

variable {wd : WorkingDirectory} {disk : Files → FileSystem}

theorem location_eq (file : JsString) :
    location wd file = partsOf (if file = [] then wd.text else wd.text ++ slash :: file) := by
  rw [location, pathJoin, Posix.components_normalize]

theorem foldl_perform_of_reads {accesses : List Access}
    (h : ∀ target content, Access.writeFile target content ∉ accesses) (tree : Files) :
    accesses.foldl (perform disk) tree = tree := by
  induction accesses with
  | nil => rfl
  | cons access accesses ih =>
      have hrest := ih fun target content hmem ↦ h target content (List.mem_cons_of_mem _ hmem)
      cases access with
      | writeFile target content => exact (h target content List.mem_cons_self).elim
      | _ => exact hrest

theorem writeFile_notMem_getEdit (fs : FileSystem) (file target content : JsString) :
    Access.writeFile target content ∉ (getEdit wd fs file).1 := by
  unfold getEdit
  split
  · simp
  · split
    · split <;> simp [readTarget]
    · simp [readTarget]

/-- Looking at files changes none. -/
theorem serve_get (tree : Files) (file : JsString) : serve wd disk tree (.get file) = tree := by
  apply foldl_perform_of_reads
  exact writeFile_notMem_getEdit (disk tree) file

/-- An accepted post writes its file, any other post changes nothing. -/
theorem serve_post (hdisk : ∀ tree, Truthful (disk tree) tree) (tree : Files)
    (file content : JsString) :
    (∃ h : tree.Writable (location wd file),
      (answer wd disk tree (.post file content)).2 = some .okay ∧
        serve wd disk tree (.post file content) = tree.write (location wd file) content h) ∨
      ((answer wd disk tree (.post file content)).2 ≠ some .okay ∧
        serve wd disk tree (.post file content) = tree) := by
  rw [serve, answer]
  by_cases hfile : file = []
  · rw [if_pos hfile]
    exact Or.inr ⟨by simp, rfl⟩
  rw [if_neg hfile]
  cases htarget : makeAbsolute wd file with
  | none =>
      right
      rw [postEdit_of_none htarget]
      exact ⟨by simp, rfl⟩
  | some target =>
      obtain rfl := makeAbsolute_eq_some htarget
      simp only [postEdit, htarget, Prod.map, id, List.foldl_cons, List.foldl_nil, perform]
      cases hwrite : (disk tree).writeFile (pathJoin wd file) content with
      | error err => exact Or.inr ⟨by simp, rfl⟩
      | ok done =>
          have hwritable : tree.Writable (location wd file) := by
            rw [location_eq]
            exact (hdisk tree).writable_of_write _ _ hwrite
          exact Or.inl ⟨hwritable, rfl, Posix.Tree.put_file_of_writable hwritable⟩

theorem accepted_of_okay {tree : Files} {file content : JsString}
    (h : (answer wd disk tree (.post file content)).2 = some .okay) :
    makeAbsolute wd file ≠ none := by
  intro hnone
  simp only [answer, postEdit_of_none hnone] at h
  split_ifs at h
  cases h

theorem node_serve (hdisk : ∀ tree, Truthful (disk tree) tree) (tree : Files)
    (request : Request) :
    (serve wd disk tree request).node = overwrite tree.node (written wd disk tree request) := by
  cases request with
  | get file => rw [serve_get, written, overwrite_nil]
  | post file content =>
      rcases serve_post hdisk tree file content with ⟨hwritable, hokay, heq⟩ | ⟨hrefused, heq⟩
      · rw [heq, written, if_pos hokay, Posix.Tree.node_write, overwrite_cons, overwrite_nil]
      · rw [heq, written, if_neg hrefused, overwrite_nil]

/-- A file after a request is the one from before or the one that was posted. -/
theorem file_serve (hdisk : ∀ tree, Truthful (disk tree) tree) {tree : Files} {request : Request}
    {parts : List JsString} {contents : JsString}
    (h : (serve wd disk tree request).node parts = some (.file contents)) :
    tree.node parts = some (.file contents) ∨
      ∃ file, request = .post file contents ∧ location wd file = parts := by
  rw [node_serve hdisk] at h
  by_cases hmem : parts ∈ (written wd disk tree request).map Prod.fst
  · cases request with
    | get file => cases hmem
    | post file content =>
        simp only [written] at h hmem
        split_ifs at h hmem
        · obtain rfl : parts = location wd file := by simpa using hmem
          rw [overwrite_cons, overwrite_nil, Function.update_self] at h
          obtain rfl : content = contents := by simpa using h
          exact Or.inr ⟨file, rfl, rfl⟩
        · cases hmem
  · rw [overwrite_of_notMem hmem] at h
    exact Or.inl h

theorem directory_serve_iff (hdisk : ∀ tree, Truthful (disk tree) tree) (tree : Files)
    (request : Request) (parts : List JsString) :
    (serve wd disk tree request).node parts = some .directory ↔
      tree.node parts = some .directory := by
  cases request with
  | get file => rw [serve_get]
  | post file content =>
      rcases serve_post hdisk tree file content with ⟨hwritable, -, heq⟩ | ⟨-, heq⟩
      · rw [heq, Posix.Tree.directory_write_iff hwritable]
      · rw [heq]

end Steps

/-! ## Any number of requests -/

section Runs

variable {wd : WorkingDirectory} {disk : Files → FileSystem}

/-- One file in the working directory `/srv/app`. -/
def oneFile : Files :=
  ((Posix.Tree.root.put [lit "srv"] .directory).put [lit "srv", lit "app"] .directory).put
    [lit "srv", lit "app", lit "notes"] (.file (lit "old"))

/-- After any requests each file holds what was last posted to its place and
accepted, or what it held before. Directories come and go by none. -/
theorem files_after_requests (hdisk : ∀ tree, Truthful (disk tree) tree) (tree : Files)
    (requests : List Request) :
    (requests.foldl (serve wd disk) tree).node =
        overwrite tree.node (gathered (serve wd disk) (written wd disk) tree requests) ∧
      ∀ parts, (requests.foldl (serve wd disk) tree).node parts = some .directory ↔
        tree.node parts = some .directory := by
  refine ⟨read_foldl (node_serve hdisk) tree requests, fun parts ↦ ?_⟩
  induction requests generalizing tree with
  | nil => rfl
  | cons request requests ih => rw [List.foldl_cons, ih, directory_serve_iff hdisk]

theorem files_after_requests_oneFile :
    let requests := [Request.post (lit "./notes") (lit "new"), .get (lit "notes")]
    (requests.foldl (serve srvApp diskOf) oneFile).node =
        overwrite oneFile.node
          (gathered (serve srvApp diskOf) (written srvApp diskOf) oneFile requests) ∧
      ∀ parts, (requests.foldl (serve srvApp diskOf) oneFile).node parts = some .directory ↔
        oneFile.node parts = some .directory :=
  files_after_requests truthful_diskOf oneFile _

/-! ## Outside the working directory -/

theorem prefix_absolute_of_accepted {file : JsString} (h : makeAbsolute wd file ≠ none) :
    wd.text <+: Posix.absolute slash (location wd file) := by
  rcases List.eq_nil_or_concat wd.parts with hnil | ⟨init, last, hparts⟩
  · rw [WorkingDirectory.text, hnil, Posix.absolute_nil]
    exact List.cons_prefix_cons.mpr ⟨rfl, List.nil_prefix⟩
  · rw [List.concat_eq_append] at hparts
    have hwd := wd.entries
    rw [hparts] at hwd
    have hlast := hwd last (by simp)
    rw [makeAbsolute_ne_none_iff, pathJoin, prefix_normalize_iff hparts, ← pathJoin,
      ← location] at h
    have hentries : ∀ name ∈ location wd file, Posix.Entry slash dot name := by
      rw [location_eq]
      exact Posix.entry_of_mem_partsOf _
    have hjoin : Lines.join slash (init ++ [last]) <+:
        Lines.join slash (location wd file) ++ [] := (Posix.join_prefix_iff
      (fun name hname ↦ (hwd name (by simp [hname])).sep_notMem) hlast.ne_nil hlast.sep_notMem
      (fun name hname ↦ (hentries name hname).sep_notMem) (Or.inl rfl)).mpr h
    rw [List.append_nil] at hjoin
    rw [WorkingDirectory.text, hparts]
    exact List.cons_prefix_cons.mpr ⟨rfl, hjoin⟩

/-- A page shows what is on the disk, or a failure. -/
theorem readTarget_shows {fs : FileSystem} {tree : Files} (hfs : Truthful fs tree)
    (file path : JsString) :
    (∃ contents, (readTarget fs file (Posix.normalize slash dot path)).2 =
          .edit (dropLastName (lit "/edit/" ++ file)) file contents ∧
        (tree.node (partsOf path) = some (.file contents) ∨
          (contents = [] ∧ tree.node (partsOf path) = none))) ∨
      ∃ err, (readTarget fs file (Posix.normalize slash dot path)).2 = .failed err := by
  cases hread : fs.readFile (Posix.normalize slash dot path) with
  | ok contents =>
      left
      refine ⟨contents, by simp [readTarget, hread], Or.inl (hfs.file_of_read path contents hread)⟩
  | error err =>
      by_cases hcode : err.code = lit "ENOENT"
      · left
        obtain ⟨code⟩ := err
        subst hcode
        exact ⟨[], by simp [readTarget, hread], Or.inr ⟨rfl, hfs.missing_of_read path hread⟩⟩
      · exact Or.inr ⟨err, by simp [readTarget, hread, hcode]⟩

/-- A page of a file shows what is at its place, and nothing else. -/
theorem shown_of_getEdit {fs : FileSystem} {tree : Files} (hfs : Truthful fs tree)
    {file base shown contents : JsString}
    (h : (getEdit wd fs file).2 = .edit base shown contents) :
    tree.node (location wd file) = some (.file contents) ∨
      (contents = [] ∧ tree.node (location wd file) = none) := by
  cases htarget : makeAbsolute wd file with
  | none =>
      rw [getEdit_of_none htarget] at h
      cases h
  | some target =>
      obtain rfl := makeAbsolute_eq_some htarget
      have hread : (readTarget fs file (pathJoin wd file)).2 = .edit base shown contents := by
        unfold getEdit at h
        simp only [htarget] at h
        split at h
        · split at h
          · cases h
          · exact h
        · exact h
      rw [location_eq]
      rcases readTarget_shows hfs file _ with ⟨text, hpage, hnode⟩ | ⟨err, hfailed⟩
      · obtain ⟨rfl, rfl, rfl⟩ := Response.edit.inj (hpage.symm.trans hread)
        exact hnode
      · cases hfailed.symm.trans hread

/-- What is shown at a place that is no directory. -/
theorem getEdit_shows {fs : FileSystem} {tree : Files} (hfs : Truthful fs tree) {file : JsString}
    (haccepted : makeAbsolute wd file ≠ none)
    (hnode : tree.node (location wd file) ≠ some .directory) :
    (∃ contents, (getEdit wd fs file).2 =
          .edit (dropLastName (lit "/edit/" ++ file)) file contents ∧
        (tree.node (location wd file) = some (.file contents) ∨
          (contents = [] ∧ tree.node (location wd file) = none))) ∨
      ∃ err, (getEdit wd fs file).2 = .failed err := by
  obtain ⟨target, htarget⟩ := Option.ne_none_iff_exists'.mp haccepted
  obtain rfl := makeAbsolute_eq_some htarget
  have hstat : fs.stat (pathJoin wd file) ≠ .ok true := by
    intro hstat
    rw [location_eq] at hnode
    exact hnode (hfs.directory_of_stat _ hstat)
  have hread : (getEdit wd fs file).2 = (readTarget fs file (pathJoin wd file)).2 := by
    simp only [getEdit, htarget]
  rw [hread, location_eq, pathJoin]
  exact readTarget_shows hfs file _

theorem accepted_of_location_eq {file other : JsString} (h : location wd other = location wd file)
    (haccepted : makeAbsolute wd file ≠ none) : makeAbsolute wd other ≠ none := by
  have hprefix : location wd file <+: location wd other := by
    rw [List.prefix_iff_eq_append, h, List.drop_length, List.append_nil]
  exact makeAbsolute_ne_none_of_prefix hprefix haccepted

/-- Once saved, a file reads back as saved until the next save to the same
place, whoever asks for it and however the path is spelled. -/
theorem saved_file_reads_back (hdisk : ∀ tree, Truthful (disk tree) tree) (tree : Files)
    {file content : JsString} (hokay : (answer wd disk tree (.post file content)).2 = some .okay)
    {later : List Request}
    (hlater : location wd file ∉ (gathered (serve wd disk) (written wd disk)
      (serve wd disk tree (.post file content)) later).map Prod.fst)
    {other : JsString} (hother : location wd other = location wd file) :
    let now := later.foldl (serve wd disk) (serve wd disk tree (.post file content))
    (getEdit wd (disk now) other).2 =
        .edit (dropLastName (lit "/edit/" ++ other)) other content ∨
      ∃ err, (getEdit wd (disk now) other).2 = .failed err := by
  intro now
  have hnow : now.node (location wd file) = some (.file content) := by
    have hrun : now.node (location wd file) = _ :=
      congrFun (read_foldl (node_serve hdisk) _ later) (location wd file)
    rw [overwrite_of_notMem hlater, node_serve hdisk, written, if_pos hokay, overwrite_cons,
      overwrite_nil, Function.update_self] at hrun
    exact hrun
  have haccepted : makeAbsolute wd file ≠ none := accepted_of_okay hokay
  have hnode : now.node (location wd other) = some (.file content) := by rw [hother, hnow]
  rcases getEdit_shows (hdisk now) (accepted_of_location_eq hother haccepted) (by simp [hnode]) with
    ⟨contents, hpage, hshown | ⟨-, hnone⟩⟩ | hfailed
  · rw [hnode] at hshown
    cases hshown
    exact Or.inl hpage
  · rw [hnode] at hnone
    cases hnone
  · exact Or.inr hfailed

theorem saved_file_reads_back_spelled :
    let now := [Request.post (lit "other") (lit "x")].foldl (serve srvApp diskOf)
      (serve srvApp diskOf oneFile (.post (lit "notes") (lit "new")))
    (getEdit srvApp (diskOf now) (lit "a/..//notes")).2 =
        .edit (dropLastName (lit "/edit/a/..//notes")) (lit "a/..//notes") (lit "new") ∨
      ∃ err, (getEdit srvApp (diskOf now) (lit "a/..//notes")).2 = .failed err :=
  saved_file_reads_back truthful_diskOf oneFile (by decide) (by decide) (by decide)

end Runs

end CoffeeTable.Server
