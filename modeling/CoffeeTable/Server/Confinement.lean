import CoffeeTable.Server.Edit

/-!
# Confinement to the working directory

Whether a joined path lies below the working directory is a matter of its
components; the guard compares texts. The two differ for one kind of path: one
that leaves the working directory into a neighbour whose name begins with the
name of the working directory. On all others the guard is exact, so that both
routes touch nothing outside and refuse nothing inside.
-/

namespace CoffeeTable.Server

open Ecma

def Within (wd : WorkingDirectory) (path : JsString) : Prop :=
  wd.parts <+: Posix.components slash path

/-- The joined path goes through a directory entry next to the working
directory that has a longer name with the same beginning. -/
def Sibling (wd : WorkingDirectory) (file : JsString) : Prop :=
  ∃ init last name rest, wd.parts = init ++ [last] ∧
    Posix.components slash (pathJoin wd file) = init ++ name :: rest ∧ last <+: name ∧
    name ≠ last

structure Confined (wd : WorkingDirectory) (file : JsString) : Prop where
  makeAbsolute_iff : makeAbsolute wd file ≠ none ↔ Within wd (pathJoin wd file)
  get_touches : ∀ fs, ∀ access ∈ (getEdit wd fs file).1, Within wd access.target
  get_refuses : ∀ fs, (getEdit wd fs file).2 = .invalidFile → ¬ Within wd (pathJoin wd file)
  post_touches : ∀ fs content, ∀ access ∈ (postEdit wd fs file content).1,
    Within wd access.target
  post_refuses : ∀ fs content, (postEdit wd fs file content).2 = .invalidFile →
    ¬ Within wd (pathJoin wd file)

/-- The components of a joined path are those of the file, resolved from the
working directory. -/
theorem components_pathJoin (wd : WorkingDirectory) (file : JsString) :
    Posix.components slash (pathJoin wd file) =
      Posix.resolve dot wd.parts (file.splitOn slash) := by
  rw [pathJoin, Posix.components_normalize, WorkingDirectory.text]
  by_cases hfile : file = []
  · subst hfile
    rw [if_pos rfl, Posix.partsOf_absolute wd.entries]
    simp [Posix.resolve, Posix.resolveStep]
  · rw [if_neg hfile, Posix.partsOf_append wd.entries]

theorem makeAbsolute_eq_some {wd : WorkingDirectory} {file target : JsString}
    (h : makeAbsolute wd file = some target) : target = pathJoin wd file := by
  simp only [makeAbsolute, Option.ite_none_right_eq_some, Option.some.injEq] at h
  exact h.2.symm

theorem makeAbsolute_ne_none_iff (wd : WorkingDirectory) (file : JsString) :
    makeAbsolute wd file ≠ none ↔ wd.text <+: pathJoin wd file := by
  have hguard : sliceTo (pathJoin wd file) wd.text.length = wd.text ↔
      wd.text <+: pathJoin wd file := by
    rw [sliceTo_natCast, List.prefix_iff_eq_take]
    exact eq_comm
  rw [makeAbsolute, ← hguard]
  simp

theorem prefix_normalize_iff {init : List JsString} {last : JsString} {wd : WorkingDirectory}
    (hparts : wd.parts = init ++ [last]) (path : JsString) :
    wd.text <+: Posix.normalize slash dot path ↔
      ∃ name rest, Posix.components slash (Posix.normalize slash dot path) =
        init ++ name :: rest ∧ last <+: name := by
  have hentries : ∀ name ∈ Posix.partsOf slash dot path, Posix.Entry slash dot name :=
    Posix.entry_of_mem_partsOf path
  have hwd := wd.entries
  rw [hparts] at hwd
  have hlast := hwd last (by simp)
  rw [Posix.components_normalize, WorkingDirectory.text, hparts, Posix.normalize]
  generalize Posix.partsOf slash dot path = parts at hentries
  have htext (trail : JsString) : Posix.absolute slash (init ++ [last]) <+:
      Posix.absolute slash parts ++ trail ↔
        Lines.join slash (init ++ [last]) <+: Lines.join slash parts ++ trail := by
    rw [Posix.absolute, Posix.absolute, List.cons_append]
    exact List.cons_prefix_cons.trans (and_iff_right rfl)
  rw [htext]
  refine Posix.join_prefix_iff (fun name hname ↦ (hwd name (by simp [hname])).sep_notMem)
    hlast.ne_nil hlast.sep_notMem (fun name hname ↦ (hentries name hname).sep_notMem) ?_
  split_ifs with htrailing
  · exact Or.inr ⟨rfl, htrailing.1⟩
  · exact Or.inl rfl

theorem makeAbsolute_iff_within (wd : WorkingDirectory) (file : JsString) :
    (makeAbsolute wd file ≠ none ↔ Within wd (pathJoin wd file)) ↔ ¬ Sibling wd file := by
  rw [makeAbsolute_ne_none_iff]
  rcases List.eq_nil_or_concat wd.parts with hnil | ⟨init, last, hparts⟩
  · -- Below the root everything is inside, and the root has no sibling.
    have hprefix : wd.text <+: pathJoin wd file := by
      rw [WorkingDirectory.text, hnil, Posix.absolute_nil, pathJoin, Posix.normalize,
        Posix.absolute, List.cons_append]
      exact List.cons_prefix_cons.mpr ⟨rfl, List.nil_prefix⟩
    have hwithin : Within wd (pathJoin wd file) := by
      rw [Within, hnil]
      exact List.nil_prefix
    apply iff_of_true (iff_of_true hprefix hwithin)
    rintro ⟨init, last, name, rest, hparts, -⟩
    rw [hnil] at hparts
    simp at hparts
  · rw [List.concat_eq_append] at hparts
    have hguard := prefix_normalize_iff hparts
      (if file = [] then wd.text else wd.text ++ slash :: file)
    rw [← pathJoin] at hguard
    rw [hguard]
    have hwithin : Within wd (pathJoin wd file) ↔
        ∃ rest, Posix.components slash (pathJoin wd file) = init ++ last :: rest := by
      rw [Within, hparts]
      constructor
      · rintro ⟨rest, hrest⟩
        exact ⟨rest, by simpa using hrest.symm⟩
      · rintro ⟨rest, hrest⟩
        exact ⟨rest, by simpa using hrest.symm⟩
    rw [hwithin]
    constructor
    · rintro hexact ⟨init', last', name, rest, hparts', hcomponents, hpre, hne⟩
      obtain ⟨rfl, rfl⟩ : init' = init ∧ last' = last := by
        simpa using hparts'.symm.trans hparts
      obtain ⟨rest', hrest'⟩ := hexact.mp ⟨name, rest, hcomponents, hpre⟩
      rw [hcomponents] at hrest'
      exact hne (List.cons_eq_cons.mp (List.append_cancel_left hrest')).1
    · intro hsibling
      constructor
      · rintro ⟨name, rest, hcomponents, hpre⟩
        by_cases hname : name = last
        · exact ⟨rest, hname ▸ hcomponents⟩
        · exact (hsibling ⟨init, last, name, rest, hparts, hcomponents, hpre, hname⟩).elim
      · rintro ⟨rest, hcomponents⟩
        exact ⟨last, rest, hcomponents, List.prefix_rfl⟩

/-- A file without parent components is inside, and the guard accepts it. -/
theorem makeAbsolute_of_notMem {wd : WorkingDirectory} {file : JsString}
    (h : [dot, dot] ∉ file.splitOn slash) :
    Within wd (pathJoin wd file) ∧ makeAbsolute wd file ≠ none := by
  have hwithin : Within wd (pathJoin wd file) := by
    rw [Within, components_pathJoin]
    exact Posix.prefix_resolve h wd.parts
  refine ⟨hwithin, (makeAbsolute_iff_within wd file).mpr ?_ |>.mpr hwithin⟩
  rintro ⟨init, last, name, rest, hparts, hcomponents, -, hne⟩
  rw [Within, hparts, hcomponents] at hwithin
  obtain ⟨tail, htail⟩ := hwithin
  rw [List.append_assoc] at htail
  exact hne (List.cons_eq_cons.mp (List.append_cancel_left htail)).1.symm

/-- Guard and routes are confined on a file exactly if its path goes through
no sibling of the working directory. -/
theorem confined_iff (wd : WorkingDirectory) (file : JsString) :
    Confined wd file ↔ ¬ Sibling wd file := by
  rw [← makeAbsolute_iff_within]
  refine ⟨Confined.makeAbsolute_iff, fun hexact ↦ ?_⟩
  cases htarget : makeAbsolute wd file with
  | none =>
      have houtside : ¬ Within wd (pathJoin wd file) := fun hwithin ↦ hexact.mpr hwithin htarget
      exact
        { makeAbsolute_iff := hexact
          get_touches := by simp [getEdit_of_none htarget]
          get_refuses := fun _ _ ↦ houtside
          post_touches := by simp [postEdit_of_none htarget]
          post_refuses := fun _ _ _ ↦ houtside }
  | some target =>
      have hwithin : Within wd (pathJoin wd file) := hexact.mp (by simp [htarget])
      obtain rfl := makeAbsolute_eq_some htarget
      exact
        { makeAbsolute_iff := hexact
          get_touches := fun fs access haccess ↦ by
            rwa [(getEdit_of_some htarget fs).1 access haccess]
          get_refuses := fun fs h ↦ ((getEdit_of_some htarget fs).2 h).elim
          post_touches := fun fs content access haccess ↦ by
            rw [(postEdit_of_some htarget fs content).1, List.mem_singleton] at haccess
            rwa [haccess]
          post_refuses := fun fs content h ↦ ((postEdit_of_some htarget fs content).2 h).elim }

def srvApp : WorkingDirectory where
  parts := [lit "srv", lit "app"]
  entries := by
    have hsrv : Posix.Entry slash dot (lit "srv") :=
      ⟨by decide, by decide, by decide, by decide⟩
    have happ : Posix.Entry slash dot (lit "app") :=
      ⟨by decide, by decide, by decide, by decide⟩
    simp [hsrv, happ]

theorem not_confined_sibling : ¬ Confined srvApp (lit "../app-secret/x") := by
  intro h
  have htarget : makeAbsolute srvApp (lit "../app-secret/x") = some (lit "/srv/app-secret/x") := by
    decide
  have houtside : ¬ Within srvApp (pathJoin srvApp (lit "../app-secret/x")) := by
    rw [Within]
    decide
  exact houtside (h.makeAbsolute_iff.mp (by simp [htarget]))

end CoffeeTable.Server
