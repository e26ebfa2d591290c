import CoffeeTable.Lines.Document

/-!
# Absolute paths and their components

A path is a text whose components are separated by one symbol. Resolving reads
the components from the left: empty ones and the name of the current directory
are skipped, the name of the parent directory drops the last component, and
above the root there is only the root. A normalized absolute path has its
components joined after one separator, and possibly one separator at the end.
Its text starts with the text of a directory if and only if its components do,
except that the last component of the directory may itself only be a prefix.
-/

namespace CoffeeTable.Posix

open Lines

variable {α : Type*}

/-- A component that stands for a directory entry. -/
structure Entry (sep dot : α) (name : List α) : Prop where
  ne_nil : name ≠ []
  ne_current : name ≠ [dot]
  ne_parent : name ≠ [dot, dot]
  sep_notMem : sep ∉ name

def absolute (sep : α) (parts : List (List α)) : List α := sep :: join sep parts

theorem absolute_nil (sep : α) : absolute sep ([] : List (List α)) = [sep] := by
  simp [absolute, join]

section Resolve

variable [DecidableEq α] {sep dot : α}

def resolveStep (dot : α) (parts : List (List α)) (part : List α) : List (List α) :=
  if part = [] ∨ part = [dot] then parts
  else if part = [dot, dot] then parts.dropLast
  else parts ++ [part]

def resolve (dot : α) (parts : List (List α)) (names : List (List α)) : List (List α) :=
  names.foldl (resolveStep dot) parts

def partsOf (sep dot : α) (path : List α) : List (List α) :=
  resolve dot [] (path.splitOn sep)

/-- Normalize an absolute path; a separator at its end is kept. -/
def normalize (sep dot : α) (path : List α) : List α :=
  let parts := partsOf sep dot path
  absolute sep parts ++ if parts ≠ [] ∧ path.getLast? = some sep then [sep] else []

def components (sep : α) (path : List α) : List (List α) :=
  (path.splitOn sep).filter (· ≠ [])

theorem resolve_append (parts xs ys : List (List α)) :
    resolve dot parts (xs ++ ys) = resolve dot (resolve dot parts xs) ys := List.foldl_append

theorem resolveStep_of_entry {name : List α} (h : Entry sep dot name) (parts : List (List α)) :
    resolveStep dot parts name = parts ++ [name] := by
  rw [resolveStep, if_neg (by simp [h.ne_nil, h.ne_current]), if_neg h.ne_parent]

theorem resolve_of_entries {names : List (List α)} (h : ∀ name ∈ names, Entry sep dot name)
    (parts : List (List α)) : resolve dot parts names = parts ++ names := by
  induction names generalizing parts with
  | nil => simp [resolve]
  | cons name names ih =>
      rw [List.forall_mem_cons] at h
      have htail := ih h.2 (parts ++ [name])
      rw [resolve, List.foldl_cons, resolveStep_of_entry h.1]
      simpa [resolve] using htail

/-- Without a parent component, resolving never drops what was there. -/
theorem prefix_resolve {names : List (List α)} (h : [dot, dot] ∉ names)
    (parts : List (List α)) : parts <+: resolve dot parts names := by
  induction names generalizing parts with
  | nil => exact List.prefix_refl parts
  | cons name names ih =>
      rw [List.mem_cons, not_or] at h
      have hstep : parts <+: resolveStep dot parts name := by
        unfold resolveStep
        split_ifs with hskip hparent
        · exact List.prefix_refl parts
        · exact (h.1 hparent.symm).elim
        · exact List.prefix_append parts [name]
      exact hstep.trans (ih h.2 (resolveStep dot parts name))

theorem entry_of_mem_resolveStep {parts : List (List α)} (h : ∀ name ∈ parts, Entry sep dot name)
    {part : List α} (hpart : sep ∉ part) :
    ∀ name ∈ resolveStep dot parts part, Entry sep dot name := by
  unfold resolveStep
  split_ifs with hskip hparent
  · exact h
  · exact fun name hname ↦ h name (List.dropLast_subset _ hname)
  · rw [not_or] at hskip
    intro name hname
    rcases List.mem_append.mp hname with hname | hname
    · exact h name hname
    · obtain rfl := List.mem_singleton.mp hname
      exact ⟨hskip.1, hskip.2, hparent, hpart⟩

theorem entry_of_mem_resolve {names : List (List α)} (hnames : ∀ name ∈ names, sep ∉ name)
    {parts : List (List α)} (h : ∀ name ∈ parts, Entry sep dot name) :
    ∀ name ∈ resolve dot parts names, Entry sep dot name := by
  induction names generalizing parts with
  | nil => exact h
  | cons name names ih =>
      rw [List.forall_mem_cons] at hnames
      exact ih hnames.2 (entry_of_mem_resolveStep h hnames.1)

theorem entry_of_mem_partsOf (path : List α) : ∀ name ∈ partsOf sep dot path, Entry sep dot name :=
  entry_of_mem_resolve (fun _ hname ↦ sep_notMem_of_mem_splitOn hname) (by simp)

theorem resolve_components (parts : List (List α)) (path : List α) :
    resolve dot parts (components sep path) = resolve dot parts (path.splitOn sep) := by
  rw [components]
  generalize path.splitOn sep = names
  induction names generalizing parts with
  | nil => rfl
  | cons name names ih =>
      by_cases hname : name = []
      · have hskip : resolveStep dot parts name = parts := if_pos (Or.inl hname)
        rw [List.filter_cons_of_neg (by simpa using hname), ih, resolve, resolve, List.foldl_cons,
          hskip]
      · rw [List.filter_cons_of_pos (by simpa using hname), resolve, List.foldl_cons]
        exact ih (resolveStep dot parts name)

theorem partsOf_append_cons (path rest : List α) :
    partsOf sep dot (path ++ sep :: rest) =
      resolve dot (partsOf sep dot path) (rest.splitOn sep) := by
  rw [partsOf, List.splitOn_append_cons_self, resolve_append, ← partsOf]

theorem components_append_cons (path rest : List α) :
    components sep (path ++ sep :: rest) = components sep path ++ components sep rest := by
  rw [components, List.splitOn_append_cons_self, List.filter_append]
  rfl

theorem components_cons (path : List α) :
    components sep (sep :: path) = components sep path := components_append_cons [] path

theorem components_of_notMem {name : List α} (hne : name ≠ []) (hsep : sep ∉ name) :
    components sep name = [name] := by
  rw [components, List.splitOn_eq_singleton hsep, List.filter_cons_of_pos (by simpa using hne),
    List.filter_nil]

end Resolve

section Absolute

variable [DecidableEq α] {sep dot : α} {parts : List (List α)}

theorem splitOn_absolute (h : ∀ name ∈ parts, Entry sep dot name) (hne : parts ≠ []) :
    (absolute sep parts).splitOn sep = [] :: parts := by
  have hjoin : absolute sep parts = join sep ([] :: parts) := by
    rw [join_cons, below_eq_cons_join sep hne]
    rfl
  rw [hjoin, splitOn_join_iff]
  refine ⟨by simp, fun line hline ↦ ?_⟩
  rcases List.mem_cons.mp hline with rfl | hline
  · exact List.not_mem_nil
  · exact (h line hline).sep_notMem

theorem partsOf_absolute (h : ∀ name ∈ parts, Entry sep dot name) :
    partsOf sep dot (absolute sep parts) = parts := by
  have hskip (names : List (List α)) : resolve dot names [[]] = names := by
    simp [resolve, resolveStep]
  by_cases hne : parts = []
  · subst hne
    rw [partsOf, absolute_nil, List.splitOn_cons_eq_if_modifyHead]
    simp [resolve, resolveStep]
  · rw [partsOf, splitOn_absolute h hne, ← List.singleton_append, resolve_append, hskip,
      resolve_of_entries h, List.nil_append]

theorem partsOf_append (h : ∀ name ∈ parts, Entry sep dot name) (path : List α) :
    partsOf sep dot (absolute sep parts ++ sep :: path) =
      resolve dot parts (path.splitOn sep) := by
  rw [partsOf_append_cons, partsOf_absolute h]

theorem components_normalize (path : List α) :
    components sep (normalize sep dot path) = partsOf sep dot path := by
  have hentries : ∀ name ∈ partsOf sep dot path, Entry sep dot name := entry_of_mem_partsOf path
  rw [normalize]
  generalize partsOf sep dot path = parts at hentries
  have hfilter : parts.filter (· ≠ []) = parts :=
    List.filter_eq_self.mpr fun name hname ↦ by simpa using (hentries name hname).ne_nil
  by_cases hne : parts = []
  · subst hne
    simp [components, absolute_nil, List.splitOn_cons_eq_if_modifyHead]
  · split_ifs with htrailing
    · have hjoin : absolute sep parts ++ [sep] = join sep ([] :: parts ++ [[]]) := by
        rw [join_append_nil sep (by simp), join_cons, below_eq_cons_join sep hne]
        rfl
      have hsplit : (absolute sep parts ++ [sep]).splitOn sep = [] :: parts ++ [[]] := by
        rw [hjoin, splitOn_join_iff]
        refine ⟨by simp, fun line hline ↦ ?_⟩
        rcases List.mem_append.mp hline with hline | hline
        · rcases List.mem_cons.mp hline with rfl | hline
          · exact List.not_mem_nil
          · exact (hentries line hline).sep_notMem
        · obtain rfl := List.mem_singleton.mp hline
          exact List.not_mem_nil
      rw [components, hsplit]
      simpa using hfilter
    · rw [List.append_nil, components, splitOn_absolute hentries hne]
      simpa using hfilter

theorem partsOf_normalize (path : List α) :
    partsOf sep dot (normalize sep dot path) = partsOf sep dot path := by
  have hentries : ∀ name ∈ partsOf sep dot path, Entry sep dot name := entry_of_mem_partsOf path
  rw [partsOf, ← resolve_components, components_normalize, resolve_of_entries hentries,
    List.nil_append]

/-- Normalizing a path that ends with a name leaves no separator at the end. -/
theorem normalize_append {name : List α} (hne : name ≠ []) (hsep : sep ∉ name) (path : List α) :
    normalize sep dot (path ++ name) = absolute sep (partsOf sep dot (path ++ name)) := by
  have hlast : (path ++ name).getLast? ≠ some sep := by
    rw [List.getLast?_append_of_ne_nil path hne]
    exact fun h ↦ hsep (List.mem_of_getLast? h)
  rw [normalize, if_neg (fun h ↦ hlast h.2), List.append_nil]

end Absolute

/-! ## Counting symbols -/

section Count

variable [DecidableEq α] {sep dot : α} {heavy : α → Bool}

theorem countP_components (hsep : ¬ heavy sep) (path : List α) :
    (components sep path).flatten.countP heavy = path.countP heavy := by
  have hflatten (names : List (List α)) : (names.filter (· ≠ [])).flatten = names.flatten := by
    induction names with
    | nil => rfl
    | cons name names ih =>
        by_cases hname : name = []
        · rw [List.filter_cons_of_neg (by simpa using hname), ih, hname, List.flatten_cons,
            List.nil_append]
        · rw [List.filter_cons_of_pos (by simpa using hname), List.flatten_cons, ih,
            List.flatten_cons]
  rw [components, hflatten]
  induction path with
  | nil => simp
  | cons c path ih =>
      obtain ⟨first, rest, hsplit⟩ := List.exists_cons_of_ne_nil (List.splitOn_ne_nil sep path)
      rw [hsplit, List.flatten_cons] at ih
      rw [List.splitOn_cons_eq_if_modifyHead, hsplit]
      by_cases hc : c = sep
      · rw [if_pos (by simpa using hc), hc, List.countP_cons_of_neg hsep]
        exact ih
      · rw [if_neg (by simpa using hc), List.modifyHead_cons, List.flatten_cons, List.cons_append,
          List.countP_cons, ih, List.countP_cons]

theorem countP_resolveStep_le (parts : List (List α)) (name : List α) :
    (resolveStep dot parts name).flatten.countP heavy ≤
      parts.flatten.countP heavy + name.countP heavy := by
  unfold resolveStep
  split_ifs
  · exact Nat.le_add_right _ _
  · rcases List.eq_nil_or_concat parts with rfl | ⟨init, last, rfl⟩
    · exact Nat.le_add_right _ _
    · rw [List.concat_eq_append, List.dropLast_concat, List.flatten_append, List.countP_append]
      omega
  · rw [List.flatten_append, List.flatten_singleton, List.countP_append]

theorem countP_resolve_le (names parts : List (List α)) :
    (resolve dot parts names).flatten.countP heavy ≤
      parts.flatten.countP heavy + names.flatten.countP heavy := by
  induction names generalizing parts with
  | nil => exact Nat.le_add_right _ _
  | cons name names ih =>
      have hstep : (resolveStep dot parts name).flatten.countP heavy ≤
          parts.flatten.countP heavy + name.countP heavy := countP_resolveStep_le parts name
      have hrest := ih (resolveStep dot parts name)
      rw [resolve, List.foldl_cons, List.flatten_cons, List.countP_append]
      exact hrest.trans (by omega)

/-- Without a parent component nothing but separators and dots is lost. -/
theorem countP_resolve (hdot : ¬ heavy dot) {names : List (List α)} (h : [dot, dot] ∉ names)
    (parts : List (List α)) :
    (resolve dot parts names).flatten.countP heavy =
      parts.flatten.countP heavy + names.flatten.countP heavy := by
  induction names generalizing parts with
  | nil => rfl
  | cons name names ih =>
      rw [List.mem_cons, not_or] at h
      have hstep : (resolveStep dot parts name).flatten.countP heavy =
          parts.flatten.countP heavy + name.countP heavy := by
        unfold resolveStep
        split_ifs with hskip hparent
        · rcases hskip with rfl | rfl
          · rfl
          · rw [List.countP_cons_of_neg hdot, List.countP_nil, Nat.add_zero]
        · exact (h.1 hparent.symm).elim
        · rw [List.flatten_append, List.flatten_singleton, List.countP_append]
      have hrest := ih h.2 (resolveStep dot parts name)
      rw [resolve, List.foldl_cons, List.flatten_cons, List.countP_append, ← Nat.add_assoc, ← hstep]
      exact hrest

end Count

/-! ## Prefixes of texts and of components -/

section Prefix

variable {sep : α}

def StartsWithSep (sep : α) (text : List α) : Prop := text = [] ∨ ∃ rest, text = sep :: rest

theorem prefix_of_prefix_append {name other rest : List α} (hname : sep ∉ name)
    (hrest : StartsWithSep sep rest) (h : name <+: other ++ rest) : name <+: other := by
  induction name generalizing other with
  | nil => exact List.nil_prefix
  | cons a name ih =>
      rw [List.mem_cons, not_or] at hname
      cases other with
      | nil =>
          rcases hrest with rfl | ⟨more, rfl⟩
          · exact h
          · exact (hname.1 (List.cons_prefix_cons.mp h).1.symm).elim
      | cons b other =>
          obtain ⟨rfl, htail⟩ := List.cons_prefix_cons.mp h
          exact List.cons_prefix_cons.mpr ⟨rfl, ih hname.2 htail⟩

theorem eq_of_append_sep_prefix {name other text rest : List α} (hname : sep ∉ name)
    (hother : sep ∉ other) (hrest : StartsWithSep sep rest)
    (h : name ++ sep :: text <+: other ++ rest) :
    name = other ∧ ∃ more, rest = sep :: more ∧ text <+: more := by
  induction name generalizing other with
  | nil =>
      cases other with
      | nil =>
          rcases hrest with rfl | ⟨more, rfl⟩
          · simp at h
          · exact ⟨rfl, more, rfl, (List.cons_prefix_cons.mp h).2⟩
      | cons b other =>
          have hsep := (List.cons_prefix_cons.mp h).1
          exact (hother (hsep ▸ List.mem_cons_self)).elim
  | cons a name ih =>
      rw [List.mem_cons, not_or] at hname
      cases other with
      | nil =>
          rcases hrest with rfl | ⟨more, rfl⟩
          · simp at h
          · exact (hname.1 (List.cons_prefix_cons.mp h).1.symm).elim
      | cons b other =>
          rw [List.mem_cons, not_or] at hother
          obtain ⟨rfl, htail⟩ := List.cons_prefix_cons.mp h
          obtain ⟨rfl, hmore⟩ := ih hname.2 hother.2 htail
          exact ⟨rfl, hmore⟩

theorem startsWithSep_below {rest : List α} (hrest : StartsWithSep sep rest)
    (names : List (List α)) : StartsWithSep sep (below sep names ++ rest) := by
  cases names with
  | nil => exact hrest
  | cons name names => exact Or.inr ⟨_, rfl⟩

theorem join_append_singleton_ne_nil (init : List (List α)) {last : List α} (h : last ≠ []) :
    join sep (init ++ [last]) ≠ [] := by
  rw [join_split]
  simp [h]

/-- The text of a directory is a prefix of a path text exactly if all but its
last component stand in front of the path, followed by a component that starts
with the last one. -/
theorem join_prefix_iff {init : List (List α)} {last : List α} {names : List (List α)}
    {trail : List α} (hinit : ∀ name ∈ init, sep ∉ name) (hlast : last ≠ []) (hsep : sep ∉ last)
    (hnames : ∀ name ∈ names, sep ∉ name) (htrail : trail = [] ∨ (trail = [sep] ∧ names ≠ [])) :
    join sep (init ++ [last]) <+: join sep names ++ trail ↔
      ∃ name rest, names = init ++ name :: rest ∧ last <+: name := by
  have hstart : StartsWithSep sep trail := by
    rcases htrail with rfl | ⟨rfl, -⟩
    · exact Or.inl rfl
    · exact Or.inr ⟨[], rfl⟩
  induction init generalizing names with
  | nil =>
      have hjoin : join sep ([] ++ [last]) = last := by simp [join]
      rw [hjoin]
      cases names with
      | nil =>
          obtain rfl : trail = [] := by simpa using htrail
          simp [join, hlast]
      | cons name names =>
          rw [join_cons, List.append_assoc]
          constructor
          · intro h
            exact ⟨name, names, rfl,
              prefix_of_prefix_append hsep (startsWithSep_below hstart names) h⟩
          · rintro ⟨other, rest, heq, hpre⟩
            obtain ⟨rfl, rfl⟩ := List.cons_eq_cons.mp heq
            exact hpre.trans (List.prefix_append _ _)
  | cons first init ih =>
      rw [List.forall_mem_cons] at hinit
      have hjoin : join sep (first :: init ++ [last]) =
          first ++ sep :: join sep (init ++ [last]) := by
        rw [List.cons_append, join_cons, below_eq_cons_join sep (by simp)]
      rw [hjoin]
      cases names with
      | nil =>
          obtain rfl : trail = [] := by simpa using htrail
          simp [join]
      | cons name names =>
          rw [List.forall_mem_cons] at hnames
          rw [join_cons, List.append_assoc]
          constructor
          · intro h
            obtain ⟨rfl, more, hmore, hpre⟩ := eq_of_append_sep_prefix hinit.1 hnames.1
              (startsWithSep_below hstart names) h
            cases names with
            | nil =>
                obtain ⟨rfl, -⟩ : trail = [sep] ∧ _ :=
                  htrail.resolve_left fun hnil ↦ by simp [hnil] at hmore
                obtain rfl : [] = more := (List.cons_eq_cons.mp hmore).2
                exact (join_append_singleton_ne_nil init hlast (List.prefix_nil.mp hpre)).elim
            | cons next names =>
                rw [below_eq_cons_join sep (by simp), List.cons_append] at hmore
                obtain rfl := (List.cons_eq_cons.mp hmore).2
                have hrest : trail = [] ∨ (trail = [sep] ∧ next :: names ≠ []) :=
                  htrail.imp_right fun h ↦ ⟨h.1, by simp⟩
                obtain ⟨other, rest, heq, hlonger⟩ := (ih hinit.2 hnames.2 hrest).mp hpre
                exact ⟨other, rest, by rw [heq]; rfl, hlonger⟩
          · rintro ⟨other, rest, heq, hpre⟩
            obtain ⟨rfl, rfl⟩ := List.cons_eq_cons.mp heq
            have hrest : trail = [] ∨ (trail = [sep] ∧ init ++ other :: rest ≠ []) :=
              htrail.imp_right fun h ↦ ⟨h.1, by simp⟩
            have htail := (ih hinit.2 hnames.2 hrest).mpr ⟨other, rest, rfl, hpre⟩
            rw [below_eq_cons_join sep (by simp), List.cons_append]
            exact (List.prefix_append_right_inj _).mpr
              (List.cons_prefix_cons.mpr ⟨rfl, htail⟩)

end Prefix

end CoffeeTable.Posix
