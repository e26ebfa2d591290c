import CoffeeTable.Ecma.Uri
import CoffeeTable.Server.Confinement
import Mathlib.Data.List.TakeWhile

/-!
# The links of a folder page

A folder page puts the name of an entry behind its base path, without encoding
it. The browser ends the path of a link at a question mark or a number sign,
the route takes what its expression matches, and decodes that. So a link leads
to its entry if neither the requested file nor the name has a symbol that one
of these steps treats in a special way. Such a symbol always makes the
requested path shorter, so that without parent components, which may hide the
difference, no other link does.
-/

namespace CoffeeTable.Server

open Ecma

def endsPath (c : CodeUnit) : Bool := c = unit '?' ∨ c = unit '#'

/-- The path of a link, as the browser requests it. -/
def urlPath (url : JsString) : JsString := url.takeWhile fun c ↦ ¬ endsPath c

def isLineTerminator (c : CodeUnit) : Bool := c ∈ [10, 13, 0x2028, 0x2029]

/-- `/^\/edit\/(.*)/`; a dot stands for no line terminator. -/
def editParameter (path : JsString) : Option JsString :=
  (path.dropPrefix? (lit "/edit/")).map (·.takeWhile fun c ↦ ¬ isLineTerminator c)

/-- The file that the route is asked for by a link. -/
def linkedFile (url : JsString) : Option JsString :=
  (editParameter (urlPath url)).bind decodeURIComponent

/-- `path.join` of a directory and the name of an entry. -/
def joinName (target name : JsString) : JsString :=
  Posix.normalize slash dot (target ++ slash :: name)

/-- The `href` of a name on a folder page leads to the entry. -/
def Leads (wd : WorkingDirectory) (target basePath name : JsString) : Prop :=
  (linkedFile (basePath ++ name)).bind (makeAbsolute wd) = some (joinName target name)

def isSpecial (c : CodeUnit) : Bool := c = percent ∨ endsPath c ∨ isLineTerminator c

def Plain (text : JsString) : Prop := ∀ c ∈ text, ¬ isSpecial c

/-- The directory above is only an entry if the guard accepts it. -/
structure Linkable (wd : WorkingDirectory) (file name : JsString) : Prop where
  file_plain : Plain file
  name_plain : Plain name
  accepted : name = lit ".." → makeAbsolute wd (file ++ slash :: name) ≠ none

/-! ## Base paths -/

theorem countP_squeezeSlashes {p : CodeUnit → Bool} (hp : ¬ p slash) (path : JsString) :
    (squeezeSlashes path).countP p = path.countP p := by
  fun_induction squeezeSlashes path with
  | case1 first second rest h ih =>
      rw [h.1, h.2, List.countP_cons_of_neg hp, List.countP_cons_of_neg hp,
        List.countP_cons_of_neg hp, ih]
  | case2 first second rest h ih => rw [List.countP_cons, ih, ← List.countP_cons]
  | case3 path => rfl

theorem components_squeezeSlashes (before path : JsString) :
    Posix.components slash (before ++ squeezeSlashes path) =
      Posix.components slash (before ++ path) := by
  fun_induction squeezeSlashes path generalizing before with
  | case1 first second rest h ih =>
      have hrest := ih []
      rw [List.nil_append, List.nil_append] at hrest
      rw [h.1, h.2, Posix.components_append_cons, Posix.components_append_cons,
        Posix.components_cons, hrest]
  | case2 first second rest h ih => simpa using ih (before ++ [first])
  | case3 path => rfl

theorem getLast?_squeezeSlashes (path : JsString) :
    (squeezeSlashes path).getLast? = path.getLast? := by
  fun_induction squeezeSlashes path with
  | case1 first second rest h ih =>
      rw [h.1, h.2, List.getLast?_cons, List.getLast?_cons, List.getLast?_cons, ih,
        Option.getD_some]
  | case2 first second rest h ih => rw [List.getLast?_cons, ih, ← List.getLast?_cons]
  | case3 path => rfl

theorem exists_squeezeSlashes_cons (rest : JsString) :
    ∃ path, squeezeSlashes (slash :: rest) = slash :: path := by
  cases rest with
  | nil => exact ⟨[], rfl⟩
  | cons second rest =>
      rw [squeezeSlashes]
      split_ifs
      · exact ⟨squeezeSlashes rest, rfl⟩
      · exact ⟨squeezeSlashes (second :: rest), rfl⟩

/-- A base path is a directory below `/edit/` with the components of the file. -/
structure IsBase (file directory : JsString) : Prop where
  components_eq : Posix.components slash directory = Posix.components slash file
  eq_nil_or : directory = [] ∨ ∃ path, directory = path ++ [slash]
  countP_eq : ∀ p : CodeUnit → Bool, ¬ p slash → directory.countP p = file.countP p

theorem exists_isBase (file : JsString) :
    ∃ directory, squeezeSlashes (lit "/edit/" ++ file ++ [slash]) = lit "/edit/" ++ directory ∧
      IsBase file directory := by
  have hedit : squeezeSlashes (lit "/edit/" ++ file ++ [slash]) =
      lit "/edit" ++ squeezeSlashes (slash :: (file ++ [slash])) := rfl
  obtain ⟨directory, hdirectory⟩ := exists_squeezeSlashes_cons (file ++ [slash])
  refine ⟨directory, ?_, ?_, ?_, fun p hp ↦ ?_⟩
  · rw [hedit, hdirectory]
    rfl
  · have hsqueeze := components_squeezeSlashes [] (slash :: (file ++ [slash]))
    rw [List.nil_append, hdirectory, List.nil_append, Posix.components_cons,
      Posix.components_cons, Posix.components_append_cons] at hsqueeze
    rw [hsqueeze]
    exact List.append_nil _
  · have hlast : (slash :: directory).getLast? = some slash := by
      rw [← hdirectory, getLast?_squeezeSlashes, ← List.cons_append, List.getLast?_concat]
    obtain ⟨path, hpath⟩ := List.getLast?_eq_some_iff.mp hlast
    cases path with
    | nil => exact Or.inl (List.cons_eq_cons.mp hpath).2
    | cons first path => exact Or.inr ⟨path, (List.cons_eq_cons.mp hpath).2⟩
  · have hsqueeze := countP_squeezeSlashes hp (slash :: (file ++ [slash]))
    rwa [hdirectory, List.countP_cons_of_neg hp, List.countP_cons_of_neg hp, List.countP_append,
      List.countP_cons_of_neg hp, List.countP_nil, Nat.add_zero] at hsqueeze

theorem folder_of_getEdit {wd : WorkingDirectory} {fs : FileSystem}
    {file target basePath : JsString} {files : List JsString}
    (h : (getEdit wd fs file).2 = .folder target basePath files) :
    makeAbsolute wd file = some target ∧
      basePath = squeezeSlashes (lit "/edit/" ++ file ++ [slash]) := by
  have hread (path : JsString) : (readTarget fs file path).2 ≠ .folder target basePath files := by
    unfold readTarget
    cases fs.readFile path with
    | ok contents => simp
    | error err => by_cases hcode : err.code = lit "ENOENT" <;> simp [hcode]
  unfold getEdit at h
  cases htarget : makeAbsolute wd file with
  | none => simp [htarget] at h
  | some path =>
      simp only [htarget] at h
      split at h
      · split at h
        · obtain ⟨rfl, rfl, -⟩ : path = target ∧ _ = basePath ∧ _ = files := by simpa using h
          exact ⟨rfl, rfl⟩
        · exact (hread path h).elim
      · exact (hread path h).elim

/-! ## Where a link leads -/

theorem components_base_append {file directory name : JsString} (h : IsBase file directory)
    (hname : name ≠ []) (hslash : slash ∉ name) :
    Posix.components slash (directory ++ name) = Posix.components slash file ++ [name] := by
  rw [← h.components_eq]
  rcases h.eq_nil_or with rfl | ⟨path, rfl⟩
  · exact Posix.components_of_notMem hname hslash
  · rw [List.append_assoc, List.singleton_append, Posix.components_append_cons,
      Posix.components_append_cons, Posix.components_of_notMem hname hslash]
    congr 1
    exact (List.append_nil _).symm

/-- The components below the working directory of a name in a directory. -/
def entryParts (wd : WorkingDirectory) (file name : JsString) : List JsString :=
  Posix.resolveStep dot (Posix.components slash (pathJoin wd file)) name

theorem components_pathJoin_base {file directory name : JsString} (wd : WorkingDirectory)
    (h : IsBase file directory) (hname : name ≠ []) (hslash : slash ∉ name) :
    Posix.components slash (pathJoin wd (directory ++ name)) = entryParts wd file name := by
  rw [components_pathJoin, ← Posix.resolve_components, components_base_append h hname hslash,
    Posix.resolve_append, Posix.resolve_components, ← components_pathJoin]
  rfl

theorem components_pathJoin_cons {name : JsString} (wd : WorkingDirectory) (file : JsString)
    (hslash : slash ∉ name) :
    Posix.components slash (pathJoin wd (file ++ slash :: name)) = entryParts wd file name := by
  rw [components_pathJoin, List.splitOn_append_cons_self, List.splitOn_eq_singleton hslash,
    Posix.resolve_append, ← components_pathJoin]
  rfl

theorem components_joinName {name : JsString} (wd : WorkingDirectory) (file : JsString)
    (hslash : slash ∉ name) :
    Posix.components slash (joinName (pathJoin wd file) name) = entryParts wd file name := by
  rw [joinName, Posix.components_normalize, Posix.partsOf_append_cons, pathJoin,
    Posix.partsOf_normalize, ← Posix.components_normalize, ← pathJoin,
    List.splitOn_eq_singleton hslash]
  rfl

theorem pathJoin_base {file directory name : JsString} (wd : WorkingDirectory)
    (h : IsBase file directory) (hname : name ≠ []) (hslash : slash ∉ name) :
    pathJoin wd (directory ++ name) = joinName (pathJoin wd file) name := by
  have htext (path : JsString) : Posix.normalize slash dot (path ++ name) =
      Posix.absolute slash (Posix.components slash (Posix.normalize slash dot (path ++ name))) := by
    rw [Posix.components_normalize, Posix.normalize_append hname hslash]
  have hjoin : pathJoin wd (directory ++ name) =
      Posix.normalize slash dot ((wd.text ++ slash :: directory) ++ name) := by
    rw [pathJoin, if_neg (by simp [hname]), List.append_assoc, List.cons_append]
  have hentry : joinName (pathJoin wd file) name =
      Posix.normalize slash dot ((pathJoin wd file ++ [slash]) ++ name) := by
    rw [joinName, List.append_assoc, List.singleton_append]
  rw [hjoin, hentry, htext, ← hjoin, components_pathJoin_base wd h hname hslash, htext, ← hentry,
    components_joinName wd file hslash]

/-- What the guard accepts it accepts with further components. -/
theorem makeAbsolute_ne_none_of_prefix {wd : WorkingDirectory} {file other : JsString}
    (h : Posix.components slash (pathJoin wd file) <+: Posix.components slash (pathJoin wd other))
    (haccepted : makeAbsolute wd file ≠ none) : makeAbsolute wd other ≠ none := by
  rw [makeAbsolute_ne_none_iff] at haccepted ⊢
  rcases List.eq_nil_or_concat wd.parts with hnil | ⟨init, last, hparts⟩
  · rw [WorkingDirectory.text, hnil, Posix.absolute_nil, pathJoin, Posix.normalize,
      Posix.absolute, List.cons_append]
    exact List.cons_prefix_cons.mpr ⟨rfl, List.nil_prefix⟩
  · rw [List.concat_eq_append] at hparts
    obtain ⟨name, rest, hcomponents, hlast⟩ := (prefix_normalize_iff hparts _).mp haccepted
    obtain ⟨more, hmore⟩ := h
    refine (prefix_normalize_iff hparts _).mpr ⟨name, rest ++ more, ?_, hlast⟩
    rw [← pathJoin, ← hmore, pathJoin, hcomponents, List.append_assoc, List.cons_append]

theorem makeAbsolute_base {wd : WorkingDirectory} {file directory name : JsString}
    (h : IsBase file directory) (hname : name ≠ []) (hslash : slash ∉ name)
    (hfile : makeAbsolute wd file ≠ none) :
    makeAbsolute wd (directory ++ name) ≠ none ↔
      (name = lit ".." → makeAbsolute wd (file ++ slash :: name) ≠ none) := by
  have hbase := components_pathJoin_base wd h hname hslash
  have hcons := components_pathJoin_cons wd file hslash
  have hsame := hbase.trans hcons.symm
  constructor
  · exact fun haccepted _ ↦ makeAbsolute_ne_none_of_prefix (hsame ▸ List.prefix_rfl) haccepted
  · intro hparent
    by_cases hdots : name = lit ".."
    · exact makeAbsolute_ne_none_of_prefix (hsame ▸ List.prefix_rfl) (hparent hdots)
    · -- Any other name is skipped or comes behind the components of the file.
      have hnames : [dot, dot] ∉ [name] := fun h ↦ hdots (List.mem_singleton.mp h).symm
      refine makeAbsolute_ne_none_of_prefix ?_ hfile
      rw [hbase]
      exact Posix.prefix_resolve hnames _

/-! ## What is left of a link -/

/-- What browser and expression leave of a path below `/edit/`. -/
def routed (text : JsString) : JsString :=
  (urlPath text).takeWhile fun c ↦ ¬ isLineTerminator c

theorem linkedFile_edit (text : JsString) :
    linkedFile (lit "/edit/" ++ text) = decodeURIComponent (routed text) := by
  have hpath : urlPath (lit "/edit/" ++ text) = lit "/edit/" ++ urlPath text :=
    List.takeWhile_append_of_pos (List.all_eq_true.mp (by decide))
  have hparameter : editParameter (lit "/edit/" ++ urlPath text) = some (routed text) := by
    have hdrop : (lit "/edit/" ++ urlPath text).dropPrefix? (lit "/edit/") = some (urlPath text) :=
      List.dropPrefix?_append_of_beq _ BEq.rfl
    rw [editParameter, hdrop, Option.map_some, routed]
  rw [linkedFile, hpath, hparameter, Option.bind_some]

theorem takeWhile_eq_or (p : CodeUnit → Bool) (text : JsString) :
    (∀ c ∈ text, p c) ∨ ∃ c rest, text = text.takeWhile p ++ c :: rest ∧ ¬ p c := by
  induction text with
  | nil => exact Or.inl fun _ hc ↦ absurd hc List.not_mem_nil
  | cons c text ih =>
      by_cases hc : p c
      · rw [List.takeWhile_cons_of_pos hc]
        rcases ih with hall | ⟨d, rest, htext, hd⟩
        · exact Or.inl (List.forall_mem_cons.mpr ⟨hc, hall⟩)
        · exact Or.inr ⟨d, rest, by rw [List.cons_append, ← htext], hd⟩
      · exact Or.inr ⟨c, text, by rw [List.takeWhile_cons_of_neg hc, List.nil_append], hc⟩

/-- A text is cut off only from a special symbol on. -/
theorem routed_eq_or (text : JsString) :
    (routed text = text ∧ ∀ c ∈ text, c ≠ percent → ¬ isSpecial c) ∨
      ∃ c rest, text = routed text ++ c :: rest ∧ isSpecial c := by
  have hrouted : routed text = text.takeWhile fun c ↦ ¬ (endsPath c ∨ isLineTerminator c) := by
    rw [routed, urlPath, List.takeWhile_takeWhile]
    congr 1
    funext c
    simp [and_comm]
  rw [hrouted]
  rcases takeWhile_eq_or (fun c ↦ ¬ (endsPath c ∨ isLineTerminator c)) text with
    hall | ⟨c, rest, htext, hc⟩
  · refine Or.inl ⟨List.takeWhile_eq_self_iff.mpr hall, fun c hc hne ↦ ?_⟩
    simpa [isSpecial, hne] using hall c hc
  · have hspecial : endsPath c ∨ isLineTerminator c := not_not.mp fun h ↦ hc (by simpa using h)
    exact Or.inr ⟨c, rest, htext, by simp [isSpecial, hspecial]⟩

theorem routed_of_plain {text : JsString} (h : Plain text) : routed text = text := by
  rcases routed_eq_or text with ⟨heq, -⟩ | ⟨c, rest, htext, hc⟩
  · exact heq
  · exact (h c (htext ▸ List.mem_append_right _ List.mem_cons_self) hc).elim

theorem plain_iff {text : JsString} : Plain text ↔ text.countP isSpecial = 0 :=
  List.countP_eq_zero.symm

theorem notMem_of_plain {text : JsString} (h : Plain text) : percent ∉ text :=
  fun hmem ↦ h percent hmem (by decide)

/-- Neither a separator nor a dot. -/
def isHeavy (c : CodeUnit) : Bool := c ≠ slash ∧ c ≠ dot

theorem isHeavy_of {p : CodeUnit → Bool} (hslash : ¬ p slash) (hdot : ¬ p dot) {c : CodeUnit}
    (h : p c) : isHeavy c := by
  have hne : c ≠ slash ∧ c ≠ dot := ⟨fun heq ↦ hslash (heq ▸ h), fun heq ↦ hdot (heq ▸ h)⟩
  simpa [isHeavy] using hne

/-- Decoding a text that is not plain loses symbols. -/
theorem plain_of_countP_le {text decoded : JsString}
    (hdecoded : decodeURIComponent (routed text) = some decoded)
    (hle : text.countP isHeavy ≤ decoded.countP isHeavy) : Plain text := by
  have hdecode : decoded.countP isHeavy + (routed text).count percent ≤
      (routed text).countP isHeavy :=
    countP_decodeURIComponent (by decide) (fun _ ↦ isHeavy_of (by decide) (by decide)) hdecoded
  rcases routed_eq_or text with ⟨heq, hall⟩ | ⟨c, rest, htext, hc⟩
  · rw [heq] at hdecode
    have hpercent : percent ∉ text := List.count_eq_zero.mp (by omega)
    intro c hc
    have hne : c ≠ percent := fun h ↦ hpercent (h ▸ hc)
    exact hall c hc hne
  · have hheavy : isHeavy c := isHeavy_of (by decide) (by decide) hc
    rw [htext, List.countP_append, List.countP_cons_of_pos hheavy] at hle
    omega

theorem countP_le_of_components_eq {wd : WorkingDirectory} {file other : JsString}
    (h : Posix.components slash (pathJoin wd other) = Posix.components slash (pathJoin wd file))
    (hdots : [dot, dot] ∉ Posix.components slash file) :
    file.countP isHeavy ≤ other.countP isHeavy := by
  have hslash : ¬ isHeavy slash := by decide
  rw [components_pathJoin, components_pathJoin, ← Posix.resolve_components wd.parts other,
    ← Posix.resolve_components wd.parts file] at h
  have hfile : (Posix.resolve dot wd.parts (Posix.components slash file)).flatten.countP isHeavy =
      wd.parts.flatten.countP isHeavy + file.countP isHeavy := by
    rw [Posix.countP_resolve (by decide) hdots, Posix.countP_components hslash]
  have hother : (Posix.resolve dot wd.parts (Posix.components slash other)).flatten.countP isHeavy ≤
      wd.parts.flatten.countP isHeavy + other.countP isHeavy := by
    rw [← Posix.countP_components hslash other]
    exact Posix.countP_resolve_le _ _
  rw [h, hfile] at hother
  omega

theorem plain_append_iff {file directory : JsString} (h : IsBase file directory)
    (name : JsString) : Plain (directory ++ name) ↔ Plain file ∧ Plain name := by
  have hcount : directory.countP isSpecial = file.countP isSpecial := h.countP_eq _ (by decide)
  have hdirectory : Plain directory ↔ Plain file := by
    rw [plain_iff, plain_iff, hcount]
  rw [← hdirectory]
  exact List.forall_mem_append

/-- A link of plain texts asks for the name behind the directory. -/
theorem leads_iff_of_plain {file directory name : JsString} (wd : WorkingDirectory)
    (h : IsBase file directory) (hname : name ≠ []) (hslash : slash ∉ name)
    (hplain : Plain (directory ++ name)) :
    Leads wd (pathJoin wd file) (lit "/edit/" ++ directory) name ↔
      makeAbsolute wd (directory ++ name) ≠ none := by
  rw [Leads, List.append_assoc, linkedFile_edit, routed_of_plain hplain,
    decodeURIComponent_of_notMem (notMem_of_plain hplain), Option.bind_some]
  constructor
  · exact fun hleads ↦ by simp [hleads]
  · intro haccepted
    obtain ⟨target, htarget⟩ := Option.ne_none_iff_exists'.mp haccepted
    rw [htarget, makeAbsolute_eq_some htarget, pathJoin_base wd h hname hslash]

theorem plain_of_leads {wd : WorkingDirectory} {file directory name : JsString}
    (h : IsBase file directory) (hname : name ≠ []) (hslash : slash ∉ name)
    (hdots : lit ".." ∉ file.splitOn slash ++ [name])
    (hleads : Leads wd (pathJoin wd file) (lit "/edit/" ++ directory) name) :
    Plain (directory ++ name) := by
  rw [Leads, List.append_assoc, linkedFile_edit] at hleads
  obtain ⟨decoded, hdecoded, htarget⟩ := Option.bind_eq_some_iff.mp hleads
  have hjoin := makeAbsolute_eq_some htarget
  rw [← pathJoin_base wd h hname hslash] at hjoin
  refine plain_of_countP_le hdecoded (countP_le_of_components_eq (congrArg _ hjoin.symm) ?_)
  rw [components_base_append h hname hslash]
  refine fun hmem ↦ hdots (List.mem_append.mpr ((List.mem_append.mp hmem).imp_left ?_))
  exact fun hmem ↦ (List.mem_filter.mp hmem).1

/-- A link leads to its entry if file and name are plain and the guard accepts
the entry. Without parent components no other link does. -/
theorem leads_iff {wd : WorkingDirectory} {fs : FileSystem} {file target basePath name : JsString}
    {files : List JsString} (h : (getEdit wd fs file).2 = .folder target basePath files)
    (hname : name ≠ []) (hslash : slash ∉ name) :
    (Linkable wd file name → Leads wd target basePath name) ∧
      ((Plain file ∧ Plain name) ∨ lit ".." ∉ file.splitOn slash ++ [name] →
        Leads wd target basePath name → Linkable wd file name) := by
  obtain ⟨htarget, rfl⟩ := folder_of_getEdit h
  obtain rfl := makeAbsolute_eq_some htarget
  obtain ⟨directory, hdirectory, hbase⟩ := exists_isBase file
  rw [hdirectory]
  have hplain := plain_append_iff hbase name
  have haccepted : makeAbsolute wd (directory ++ name) ≠ none ↔
      (name = lit ".." → makeAbsolute wd (file ++ slash :: name) ≠ none) :=
    makeAbsolute_base hbase hname hslash (by simp [htarget])
  constructor
  · intro hlinkable
    have htexts := hplain.mpr ⟨hlinkable.file_plain, hlinkable.name_plain⟩
    exact (leads_iff_of_plain wd hbase hname hslash htexts).mpr (haccepted.mpr hlinkable.accepted)
  · intro hcase hleads
    have htexts : Plain (directory ++ name) := by
      rcases hcase with hboth | hdots
      · exact hplain.mpr hboth
      · exact plain_of_leads hbase hname hslash hdots hleads
    obtain ⟨hfile, hentry⟩ := hplain.mp htexts
    have hfound := (leads_iff_of_plain wd hbase hname hslash htexts).mp hleads
    exact ⟨hfile, hentry, haccepted.mp hfound⟩

/-- Every path is a directory with the same two entries. -/
def twoEntries : FileSystem where
  stat _ := .ok true
  readdir _ := .ok [lit "c.txt", lit "c#.txt"]
  readFile _ := .error ⟨lit "EISDIR"⟩
  writeFile _ _ := .error ⟨lit "EISDIR"⟩

theorem leads_plain_name :
    Leads srvApp (lit "/srv/app/docs") (lit "/edit/docs/") (lit "c.txt") := by
  have hfolder : (getEdit srvApp twoEntries (lit "docs")).2 =
      .folder (lit "/srv/app/docs") (lit "/edit/docs/") [lit "c.txt", lit "c#.txt"] := by decide
  have hlinkable : Linkable srvApp (lit "docs") (lit "c.txt") :=
    ⟨plain_iff.mpr (by decide), plain_iff.mpr (by decide), fun h ↦ absurd h (by decide)⟩
  exact (leads_iff hfolder (by decide) (by decide)).1 hlinkable

theorem not_leads_number_sign :
    (getEdit srvApp twoEntries (lit "docs")).2 =
        .folder (lit "/srv/app/docs") (lit "/edit/docs/") [lit "c.txt", lit "c#.txt"] ∧
      ¬ Leads srvApp (lit "/srv/app/docs") (lit "/edit/docs/") (lit "c#.txt") := by
  rw [Leads]
  decide

end CoffeeTable.Server
