import CoffeeTable.Server.Requests

/-!
# From folder to folder

Beginning at the working directory, the links of the folder pages lead to every
node of the tree whose names are plain, one link for each name. The page of a
file shows it, and its heading leads back to the folder. A save from that page
goes to this very file: nothing else changes, and the page shows what was saved.
-/

namespace CoffeeTable.Server

open Ecma Transition

/-- The file system also refuses nothing that the tree admits. A separator at
the end of a path is for directories only. -/
structure Permissive (fs : FileSystem) (tree : Files) : Prop extends Truthful fs tree where
  stat_directory : ∀ path, tree.node (partsOf path) = some .directory →
    fs.stat (Posix.normalize slash dot path) = .ok true
  readdir_directory : ∀ path, tree.node (partsOf path) = some .directory →
    fs.readdir (Posix.normalize slash dot path) = .ok (tree.names (partsOf path))
  read_file : ∀ path contents, tree.node (partsOf path) = some (.file contents) →
    (Posix.normalize slash dot path).getLast? ≠ some slash →
      fs.readFile (Posix.normalize slash dot path) = .ok contents
  write_file : ∀ path content, tree.Writable (partsOf path) →
    (Posix.normalize slash dot path).getLast? ≠ some slash →
      fs.writeFile (Posix.normalize slash dot path) content = .ok ()

theorem permissive_diskOf (tree : Files) : Permissive (diskOf tree) tree where
  toTruthful := truthful_diskOf tree
  stat_directory path hnode := by
    simp only [diskOf, Posix.components_normalize, hnode]
  readdir_directory path hnode := by
    simp only [diskOf, Posix.components_normalize, hnode]
  read_file path contents hnode hlast := by
    simp only [diskOf, Posix.components_normalize, hnode, if_neg hlast]
  write_file path content hwritable hlast := by
    simp only [diskOf, Posix.components_normalize, if_neg hlast, if_pos hwritable]

/-- The file asked for after following links by their names. -/
def follow (wd : WorkingDirectory) (fs : FileSystem) (file : JsString) :
    List JsString → Option JsString
  | [] => some file
  | name :: names =>
      match (getEdit wd fs file).2 with
      | .folder _ basePath files =>
          if name ∈ files then
            (linkedFile (basePath ++ name)).bind fun next ↦ follow wd fs next names
          else none
      | _ => none

/-! ## One link -/

section Link

variable {wd : WorkingDirectory} {fs : FileSystem} {tree : Files} {file name : JsString}

theorem getEdit_directory (hfs : Permissive fs tree) (haccepted : makeAbsolute wd file ≠ none)
    (hnode : tree.node (location wd file) = some .directory) :
    (getEdit wd fs file).2 = .folder (pathJoin wd file)
      (squeezeSlashes (lit "/edit/" ++ file ++ [slash])) (tree.names (location wd file)) := by
  obtain ⟨target, htarget⟩ := Option.ne_none_iff_exists'.mp haccepted
  obtain rfl := makeAbsolute_eq_some htarget
  rw [location_eq] at hnode ⊢
  have hstat := hfs.stat_directory _ hnode
  have hreaddir := hfs.readdir_directory _ hnode
  rw [← pathJoin] at hstat hreaddir
  simp only [getEdit, htarget, hstat, hreaddir]

theorem location_base {directory : JsString} (h : IsBase file directory)
    (hentry : Posix.Entry slash dot name) :
    location wd (directory ++ name) = location wd file ++ [name] := by
  rw [location, components_pathJoin_base wd h hentry.ne_nil hentry.sep_notMem, entryParts,
    Posix.resolveStep_of_entry hentry, location]

theorem pathJoin_base_eq {directory : JsString} (h : IsBase file directory)
    (hentry : Posix.Entry slash dot name) :
    pathJoin wd (directory ++ name) = Posix.absolute slash (location wd file ++ [name]) := by
  have hne : directory ++ name ≠ [] := by simp [hentry.ne_nil]
  have htext : wd.text ++ slash :: (directory ++ name) =
      (wd.text ++ slash :: directory) ++ name := by simp
  rw [← location_base h hentry, location_eq, pathJoin, if_neg hne, htext,
    Posix.normalize_append hentry.ne_nil hentry.sep_notMem]

theorem getLast?_absolute {parts : List JsString} (hentry : Posix.Entry slash dot name) :
    (Posix.absolute slash (parts ++ [name])).getLast? ≠ some slash := by
  have htext : Posix.absolute slash (parts ++ [name]) =
      (slash :: Lines.above slash parts) ++ name := by
    rw [Posix.absolute, Lines.join_split, Lines.below_nil, List.append_nil, List.cons_append]
  rw [htext, List.getLast?_append_of_ne_nil _ hentry.ne_nil]
  exact fun hlast ↦ hentry.sep_notMem (List.mem_of_getLast? hlast)

/-- The link of an entry asks for the entry. -/
theorem follow_cons (hfs : Permissive fs tree) (haccepted : makeAbsolute wd file ≠ none)
    (hfile : Plain file) (hname : Plain name)
    (hnode : tree.node (location wd file ++ [name]) ≠ none) (names : List JsString) :
    ∃ directory, follow wd fs file (name :: names) = follow wd fs (directory ++ name) names ∧
      makeAbsolute wd (directory ++ name) =
        some (Posix.absolute slash (location wd file ++ [name])) ∧
      Plain (directory ++ name) ∧ location wd (directory ++ name) = location wd file ++ [name] := by
  obtain ⟨directory, hdirectory, hbase⟩ := exists_isBase file
  have hentry : Posix.Entry slash dot name := tree.entry hnode
  have hplain : Plain (directory ++ name) := (plain_append_iff hbase name).mpr ⟨hfile, hname⟩
  have hlink : linkedFile (lit "/edit/" ++ directory ++ name) = some (directory ++ name) := by
    rw [List.append_assoc, linkedFile_edit, routed_of_plain hplain,
      decodeURIComponent_of_notMem (notMem_of_plain hplain)]
  have hparent : name = lit ".." → makeAbsolute wd (file ++ slash :: name) ≠ none :=
    fun hdots ↦ (hentry.ne_parent hdots).elim
  refine ⟨directory, ?_, ?_, hplain, location_base hbase hentry⟩
  · have hpage := getEdit_directory hfs haccepted (tree.parent_eq hnode)
    rw [follow, hpage, hdirectory]
    simp only [if_pos (tree.mem_names.mpr hnode), hlink, Option.bind_some]
  · have hnext := (makeAbsolute_base hbase hentry.ne_nil hentry.sep_notMem haccepted).mpr hparent
    obtain ⟨target, htarget⟩ := Option.ne_none_iff_exists'.mp hnext
    rw [htarget, makeAbsolute_eq_some htarget, pathJoin_base_eq hbase hentry]

/-- The links lead through all directories on the way to a node. -/
theorem follow_reaches (hfs : Permissive fs tree) {names : List JsString} (hne : names ≠ [])
    (hplain : ∀ name ∈ names, Plain name) (haccepted : makeAbsolute wd file ≠ none)
    (hfile : Plain file) (hnode : tree.node (location wd file ++ names) ≠ none) :
    ∃ other, follow wd fs file names = some other ∧ Plain other ∧
      location wd other = location wd file ++ names ∧
      makeAbsolute wd other = some (Posix.absolute slash (location wd file ++ names)) := by
  induction names generalizing file with
  | nil => exact (hne rfl).elim
  | cons name names ih =>
      rw [List.forall_mem_cons] at hplain
      have hsplit : location wd file ++ name :: names = location wd file ++ [name] ++ names := by
        simp
      rw [hsplit] at hnode ⊢
      have hfirst : tree.node (location wd file ++ [name]) ≠ none := by
        by_cases hlast : names = []
        · subst hlast
          rwa [List.append_nil] at hnode
        · rw [Posix.Tree.node_of_prefix hnode hlast]
          exact Option.some_ne_none _
      obtain ⟨directory, hfollow, hnext, hnextPlain, hlocation⟩ :=
        follow_cons hfs haccepted hfile hplain.1 hfirst names
      rw [hfollow]
      by_cases hlast : names = []
      · subst hlast
        rw [List.append_nil]
        exact ⟨directory ++ name, rfl, hnextPlain, hlocation, hnext⟩
      · rw [← hlocation] at hnode ⊢
        exact ih hlast hplain.2 (by simp [hnext]) hnextPlain hnode

end Link

/-! ## The heading of a page -/

section Heading

variable {wd : WorkingDirectory} {fs : FileSystem} {tree : Files} {directory name : JsString}

theorem location_nil (wd : WorkingDirectory) : location wd [] = wd.parts := by
  rw [location_eq, if_pos rfl, WorkingDirectory.text]
  exact Posix.partsOf_absolute wd.entries

theorem makeAbsolute_nil (wd : WorkingDirectory) : makeAbsolute wd [] ≠ none := by
  apply (makeAbsolute_of_notMem _).2
  decide

theorem dropLastName_append (hdirectory : directory = [] ∨ ∃ path, directory = path ++ [slash])
    (hname : slash ∉ name) :
    dropLastName (lit "/edit/" ++ (directory ++ name)) = lit "/edit/" ++ directory := by
  obtain ⟨path, hpath⟩ : ∃ path, lit "/edit/" ++ directory = path ++ [slash] := by
    rcases hdirectory with rfl | ⟨path, rfl⟩
    · exact ⟨lit "/edit", rfl⟩
    · exact ⟨lit "/edit/" ++ path, by simp⟩
  have hskip : ∀ c ∈ name.reverse, decide (c ≠ slash) := by
    intro c hc
    rw [decide_eq_true_eq]
    rintro rfl
    exact hname (List.mem_reverse.mp hc)
  rw [← List.append_assoc, hpath, dropLastName, List.reverse_append,
    List.dropWhile_append_of_pos hskip, List.reverse_append, List.reverse_singleton,
    List.singleton_append, List.dropWhile_cons_of_neg (by simp), ← List.singleton_append,
    List.reverse_append, List.reverse_reverse, List.reverse_singleton]

end Heading

/-! ## Editing what the links lead to -/

section Edit

variable {wd : WorkingDirectory} {disk : Files → FileSystem}

/-- The page of a file that ends in no separator shows the file. -/
theorem getEdit_file {fs : FileSystem} {tree : Files} (hfs : Permissive fs tree)
    {file contents : JsString} (haccepted : makeAbsolute wd file ≠ none)
    (hlast : (pathJoin wd file).getLast? ≠ some slash)
    (hnode : tree.node (location wd file) = some (.file contents)) :
    (getEdit wd fs file).2 = .edit (dropLastName (lit "/edit/" ++ file)) file contents := by
  have hread : fs.readFile (pathJoin wd file) = .ok contents := by
    rw [location_eq] at hnode
    exact hfs.read_file _ _ hnode hlast
  obtain ⟨target, htarget⟩ := Option.ne_none_iff_exists'.mp haccepted
  obtain rfl := makeAbsolute_eq_some htarget
  have hstat : fs.stat (pathJoin wd file) ≠ .ok true := by
    intro hstat
    rw [location_eq] at hnode
    rw [hfs.directory_of_stat _ hstat] at hnode
    cases hnode
  simp only [getEdit, htarget, readTarget, hread]

/-- The tree admits a file by this name. -/
structure Savable (wd : WorkingDirectory) (tree : Files) (file : JsString) : Prop where
  ne_nil : file ≠ []
  getLast?_ne : (pathJoin wd file).getLast? ≠ some slash
  writable : tree.Writable (location wd file)

/-- A post to an admitted place is accepted. -/
theorem answer_okay {tree : Files} (hdisk : Permissive (disk tree) tree)
    {file : JsString} (haccepted : makeAbsolute wd file ≠ none) (h : Savable wd tree file)
    (content : JsString) : (answer wd disk tree (.post file content)).2 = some .okay := by
  have hwrite : (disk tree).writeFile (pathJoin wd file) content = .ok () := by
    have hwritable := h.writable
    rw [location_eq] at hwritable
    exact hdisk.write_file _ content hwritable h.getLast?_ne
  obtain ⟨target, htarget⟩ := Option.ne_none_iff_exists'.mp haccepted
  obtain rfl := makeAbsolute_eq_some htarget
  simp only [answer, if_neg h.ne_nil, postEdit, htarget, hwrite, Prod.map]

theorem writable_of_file {tree : Files} {parts : List JsString} {contents : JsString}
    (hnode : tree.node parts = some (.file contents)) : tree.Writable parts := by
  rcases List.eq_nil_or_concat parts with rfl | ⟨init, last, rfl⟩
  · rw [tree.root_eq] at hnode
    cases hnode
  · rw [List.concat_eq_append] at hnode ⊢
    have hsome : tree.node (init ++ [last]) ≠ none := by simp [hnode]
    exact Posix.Tree.writable_append_iff.mpr
      ⟨tree.parent_eq hsome, by simp [hnode], tree.entry hsome⟩

end Edit

end CoffeeTable.Server
