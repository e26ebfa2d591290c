import CoffeeTable.Server.Folders

/-!
# Handlers and their callbacks

A handler runs up to its next call of the file system and goes on in a callback,
so between the steps of one request come steps of others. Still every request is
answered as if it had been handled at once, in the moment of its answer: no
request makes or removes a directory, and so what a handler has learned about
its path stays true while it waits.
-/

namespace CoffeeTable.Server

open Ecma Transition

/-- A handler that waits for the file system. -/
inductive Job where
  | stat (file target : JsString)
  | readdir (file target : JsString)
  | readFile (file target : JsString)
  | writeFile (file target content : JsString)

namespace Job

def request : Job → Request
  | .stat file _ => .get file
  | .readdir file _ => .get file
  | .readFile file _ => .get file
  | .writeFile file _ content => .post file content

def access : Job → Access
  | .stat _ target => .stat target
  | .readdir _ target => .readdir target
  | .readFile _ target => .readFile target
  | .writeFile _ target content => .writeFile target content

end Job

/-- A handler waits or it has answered. -/
abbrev Progress := Job ⊕ Option Response

/-- What a handler does up to its first call. -/
def handle (wd : WorkingDirectory) : Request → Progress
  | .get file =>
      match makeAbsolute wd file with
      | none => .inr (some .invalidFile)
      | some target => .inl (.stat file target)
  | .post file content =>
      if file = [] then .inr none
      else
        match makeAbsolute wd file with
        | none => .inr (some .invalidFile)
        | some target => .inl (.writeFile file target content)

def callback (fs : FileSystem) : Job → Progress
  | .stat file target =>
      match fs.stat target with
      | .ok true => .inl (.readdir file target)
      | _ => .inl (.readFile file target)
  | .readdir file target =>
      match fs.readdir target with
      | .ok files =>
          .inr (some (.folder target (squeezeSlashes (lit "/edit/" ++ file ++ [slash])) files))
      | .error _ => .inl (.readFile file target)
  | .readFile file target => .inr (some (readTarget fs file target).2)
  | .writeFile _ target content =>
      match fs.writeFile target content with
      | .ok () => .inr (some .okay)
      | .error err => .inr (some (.failed err))

structure Serving where
  tree : Files
  jobs : List Job
  answered : List (Request × Option Response)

inductive ServingEvent where
  | arrive (request : Request)
  | complete (index : ℕ)

def ServingEvent.arriving : ServingEvent → List Request
  | .arrive request => [request]
  | .complete _ => []

section Step

variable (wd : WorkingDirectory) (disk : Files → FileSystem)

def servingStep (serving : Serving) : ServingEvent → Serving
  | .arrive request =>
      match handle wd request with
      | .inl job => { serving with jobs := serving.jobs ++ [job] }
      | .inr response => { serving with answered := serving.answered ++ [(request, response)] }
  | .complete index =>
      match serving.jobs[index]? with
      | none => serving
      | some job =>
          match callback (disk serving.tree) job with
          | .inl next =>
              { serving with
                tree := perform disk serving.tree job.access
                jobs := serving.jobs.set index next }
          | .inr response =>
              { tree := perform disk serving.tree job.access
                jobs := serving.jobs.eraseIdx index
                answered := serving.answered ++ [(job.request, response)] }

def runServing (tree : Files) (events : List ServingEvent) : Serving :=
  events.foldl (servingStep wd disk) ⟨tree, [], []⟩

/-- The responses to requests that are handled at once, one after another. -/
def responses (tree : Files) (requests : List Request) : List (Option Response) :=
  gathered (serve wd disk) (fun tree request ↦ [(answer wd disk tree request).2]) tree requests

end Step

/-! ## What a waiting handler knows -/

def Waiting (wd : WorkingDirectory) (tree : Files) : Job → Prop
  | .stat file target => makeAbsolute wd file = some target
  | .readdir file target =>
      makeAbsolute wd file = some target ∧ tree.node (location wd file) = some .directory
  | .readFile file target =>
      makeAbsolute wd file = some target ∧ tree.node (location wd file) ≠ some .directory
  | .writeFile file target _ => makeAbsolute wd file = some target ∧ file ≠ []

section Waiting

variable {wd : WorkingDirectory} {disk : Files → FileSystem} {tree : Files} {request : Request}
  {job later : Job} {response : Option Response}

/-- A request may change files, but it leaves the handlers that wait in the right. -/
theorem Waiting.serve (hdisk : ∀ tree, Truthful (disk tree) tree) (h : Waiting wd tree job)
    (request : Request) : Waiting wd (serve wd disk tree request) job := by
  cases job with
  | stat file target => exact h
  | readdir file target => exact ⟨h.1, (directory_serve_iff hdisk tree request _).mpr h.2⟩
  | readFile file target => exact ⟨h.1, (directory_serve_iff hdisk tree request _).not.mpr h.2⟩
  | writeFile file target content => exact h

theorem waiting_of_handle (tree : Files) (h : handle wd request = .inl job) :
    Waiting wd tree job ∧ job.request = request := by
  cases request with
  | get file =>
      cases htarget : makeAbsolute wd file with
      | none => simp [handle, htarget] at h
      | some target =>
          obtain rfl : Job.stat file target = job := by simpa [handle, htarget] using h
          exact ⟨htarget, rfl⟩
  | post file content =>
      by_cases hfile : file = []
      · simp [handle, hfile] at h
      · cases htarget : makeAbsolute wd file with
        | none => simp [handle, hfile, htarget] at h
        | some target =>
            obtain rfl : Job.writeFile file target content = job := by
              simpa [handle, hfile, htarget] using h
            exact ⟨⟨htarget, hfile⟩, rfl⟩

theorem answer_of_handle (disk : Files → FileSystem) (tree : Files)
    (h : handle wd request = .inr response) :
    (answer wd disk tree request).2 = response ∧ serve wd disk tree request = tree := by
  cases request with
  | get file =>
      cases htarget : makeAbsolute wd file with
      | none =>
          obtain rfl : some .invalidFile = response := by simpa [handle, htarget] using h
          simp [answer, getEdit_of_none htarget, serve_get]
      | some target => simp [handle, htarget] at h
  | post file content =>
      by_cases hfile : file = []
      · obtain rfl : none = response := by simpa [handle, hfile] using h
        simp [answer, Server.serve, hfile]
      · cases htarget : makeAbsolute wd file with
        | none =>
            obtain rfl : some .invalidFile = response := by
              simpa [handle, hfile, htarget] using h
            simp [answer, Server.serve, hfile, postEdit_of_none htarget]
        | some target => simp [handle, hfile, htarget] at h

theorem stat_iff {fs : FileSystem} (hfs : Permissive fs tree) (wd : WorkingDirectory)
    (file : JsString) :
    fs.stat (pathJoin wd file) = .ok true ↔ tree.node (location wd file) = some .directory := by
  rw [location_eq, pathJoin]
  exact ⟨hfs.directory_of_stat _, hfs.stat_directory _⟩

theorem readdir_eq {fs : FileSystem} (hfs : Permissive fs tree) {file : JsString}
    (hnode : tree.node (location wd file) = some .directory) :
    fs.readdir (pathJoin wd file) = .ok (tree.names (location wd file)) := by
  rw [location_eq] at hnode ⊢
  exact hfs.readdir_directory _ hnode

/-- A callback that goes on knows more about its path and has changed nothing. -/
theorem Waiting.next (hdisk : Permissive (disk tree) tree) (h : Waiting wd tree job)
    (hnext : callback (disk tree) job = .inl later) :
    Waiting wd tree later ∧ later.request = job.request ∧ perform disk tree job.access = tree := by
  cases job with
  | stat file target =>
      obtain rfl := makeAbsolute_eq_some h
      by_cases hnode : tree.node (location wd file) = some .directory
      · have hstat := (stat_iff hdisk wd file).mpr hnode
        obtain rfl : Job.readdir file (pathJoin wd file) = later := by
          simpa [callback, hstat] using hnext
        exact ⟨⟨h, hnode⟩, rfl, rfl⟩
      · have hstat := (stat_iff hdisk wd file).not.mpr hnode
        obtain rfl : Job.readFile file (pathJoin wd file) = later := by
          simpa [callback, hstat] using hnext
        exact ⟨⟨h, hnode⟩, rfl, rfl⟩
  | readdir file target =>
      obtain ⟨htarget, hnode⟩ := h
      obtain rfl := makeAbsolute_eq_some htarget
      simp [callback, readdir_eq hdisk hnode] at hnext
  | readFile file target => cases hnext
  | writeFile file target content =>
      simp only [callback] at hnext
      split at hnext <;> cases hnext

/-- A callback that answers does so as if the request were handled now. -/
theorem Waiting.answer (hdisk : Permissive (disk tree) tree) (h : Waiting wd tree job)
    (hanswer : callback (disk tree) job = .inr response) :
    (answer wd disk tree job.request).2 = response ∧
      perform disk tree job.access = Server.serve wd disk tree job.request := by
  cases job with
  | stat file target =>
      simp only [callback] at hanswer
      split at hanswer <;> cases hanswer
  | readdir file target =>
      obtain ⟨htarget, hnode⟩ := h
      have haccepted : makeAbsolute wd file ≠ none := by simp [htarget]
      obtain rfl := makeAbsolute_eq_some htarget
      simp only [callback, readdir_eq hdisk hnode, Sum.inr.injEq] at hanswer
      refine ⟨?_, (serve_get tree file).symm⟩
      rw [← hanswer]
      exact congrArg some (getEdit_directory hdisk haccepted hnode)
  | readFile file target =>
      obtain ⟨htarget, hnode⟩ := h
      obtain rfl := makeAbsolute_eq_some htarget
      have hstat := (stat_iff hdisk wd file).not.mpr hnode
      refine ⟨?_, (serve_get tree file).symm⟩
      rw [← Sum.inr.inj hanswer]
      simp only [Job.request, Server.answer, getEdit, htarget, Prod.map]
  | writeFile file target content =>
      obtain ⟨htarget, hfile⟩ := h
      simp only [Job.request, Job.access, Server.answer, Server.serve, if_neg hfile, postEdit,
        htarget, Prod.map, id, List.foldl_cons, List.foldl_nil, and_true]
      cases hwrite : (disk tree).writeFile target content with
      | ok done => simpa [callback, hwrite] using hanswer
      | error err => simpa [callback, hwrite] using hanswer

end Waiting

/-! ## Runs -/

namespace Serving

def requests (serving : Serving) : List Request := serving.answered.map Prod.fst

/-- The requests of a run, answered or not. -/
def arrived (serving : Serving) : List Request :=
  serving.jobs.map Job.request ++ serving.requests

end Serving

/-- Everything is as if the answered requests had been handled at once, in the
order of their answers. -/
structure AtOnce (wd : WorkingDirectory) (disk : Files → FileSystem) (tree : Files)
    (serving : Serving) : Prop where
  waiting : ∀ job ∈ serving.jobs, Waiting wd serving.tree job
  tree_eq : serving.tree = serving.requests.foldl (serve wd disk) tree
  responses_eq : serving.answered.map Prod.snd = responses wd disk tree serving.requests

section Runs

variable {wd : WorkingDirectory} {disk : Files → FileSystem} {tree : Files} {serving : Serving}

/-- One more answer. -/
theorem AtOnce.answered (hdisk : ∀ tree, Truthful (disk tree) tree)
    (h : AtOnce wd disk tree serving) {jobs : List Job} (hjobs : jobs ⊆ serving.jobs)
    {request : Request} {response : Option Response}
    (hanswer : (answer wd disk serving.tree request).2 = response) :
    AtOnce wd disk tree ⟨serve wd disk serving.tree request, jobs,
      serving.answered ++ [(request, response)]⟩ where
  waiting job hjob := (h.waiting job (hjobs hjob)).serve hdisk request
  tree_eq := by
    rw [Serving.requests, List.map_append, List.foldl_append, ← Serving.requests, ← h.tree_eq]
    rfl
  responses_eq := by
    rw [Serving.requests, List.map_append, List.map_append, responses, gathered_append,
      ← Serving.requests, ← h.tree_eq, h.responses_eq]
    simp [responses, gathered, hanswer]

theorem AtOnce.step (hdisk : ∀ tree, Permissive (disk tree) tree)
    (h : AtOnce wd disk tree serving) (event : ServingEvent) :
    AtOnce wd disk tree (servingStep wd disk serving event) := by
  have htruthful : ∀ tree, Truthful (disk tree) tree := fun tree ↦ (hdisk tree).toTruthful
  cases event with
  | arrive request =>
      cases hhandle : handle wd request with
      | inl job =>
          simp only [servingStep, hhandle]
          refine ⟨fun other hother ↦ ?_, h.tree_eq, h.responses_eq⟩
          rcases List.mem_append.mp hother with hold | hnew
          · exact h.waiting other hold
          · obtain rfl := List.mem_singleton.mp hnew
            exact (waiting_of_handle serving.tree hhandle).1
      | inr response =>
          obtain ⟨hanswer, hserve⟩ := answer_of_handle disk serving.tree hhandle
          have hnext := h.answered htruthful (List.Subset.refl _) hanswer
          rw [hserve] at hnext
          simpa only [servingStep, hhandle] using hnext
  | complete index =>
      cases hjob : serving.jobs[index]? with
      | none => simpa only [servingStep, hjob] using h
      | some job =>
          have hwaiting := h.waiting job (List.mem_of_getElem? hjob)
          cases hcallback : callback (disk serving.tree) job with
          | inl later =>
              obtain ⟨hlater, -, hsame⟩ := hwaiting.next (hdisk _) hcallback
              simp only [servingStep, hjob, hcallback, hsame]
              refine ⟨fun other hother ↦ ?_, h.tree_eq, h.responses_eq⟩
              rcases List.mem_or_eq_of_mem_set hother with hold | rfl
              · exact h.waiting other hold
              · exact hlater
          | inr response =>
              obtain ⟨hanswer, hserve⟩ := hwaiting.answer (hdisk _) hcallback
              simp only [servingStep, hjob, hcallback, hserve]
              exact h.answered htruthful (List.eraseIdx_subset) hanswer

/-! ## No request is lost -/

theorem map_set_of_eq {jobs : List Job} {index : ℕ} {job later : Job}
    (hjob : jobs[index]? = some job) (h : later.request = job.request) :
    (jobs.set index later).map Job.request = jobs.map Job.request := by
  obtain ⟨hlt, rfl⟩ := List.getElem?_eq_some_iff.mp hjob
  rw [List.map_set, h, ← List.getElem_map Job.request]
  · exact List.set_getElem_self _
  · rwa [List.length_map]

theorem arrived_step (hdisk : ∀ tree, Permissive (disk tree) tree)
    (h : AtOnce wd disk tree serving) (event : ServingEvent) :
    (servingStep wd disk serving event).arrived.Perm (serving.arrived ++ event.arriving) := by
  cases event with
  | arrive request =>
      cases hhandle : handle wd request with
      | inl job =>
          have hrequest := (waiting_of_handle serving.tree hhandle).2
          simp only [servingStep, hhandle, Serving.arrived, Serving.requests, List.map_append,
            List.map_singleton, hrequest, ServingEvent.arriving, List.append_assoc]
          apply List.Perm.append_left
          exact List.perm_append_comm
      | inr response =>
          simp only [servingStep, hhandle, Serving.arrived, Serving.requests, List.map_append,
            List.map_singleton, ServingEvent.arriving, List.append_assoc]
          exact List.Perm.refl _
  | complete index =>
      rw [ServingEvent.arriving, List.append_nil]
      cases hjob : serving.jobs[index]? with
      | none => simp only [servingStep, hjob, List.Perm.refl]
      | some job =>
          have hwaiting := h.waiting job (List.mem_of_getElem? hjob)
          cases hcallback : callback (disk serving.tree) job with
          | inl later =>
              obtain ⟨-, hrequest, -⟩ := hwaiting.next (hdisk _) hcallback
              simp only [servingStep, hjob, hcallback, Serving.arrived, Serving.requests,
                map_set_of_eq hjob hrequest]
              exact List.Perm.refl _
          | inr response =>
              obtain ⟨hlt, rfl⟩ := List.getElem?_eq_some_iff.mp hjob
              have htaken := (List.getElem_cons_eraseIdx_perm hlt).map Job.request
              simp only [servingStep, hjob, hcallback, Serving.arrived, Serving.requests,
                List.map_append, List.map_singleton]
              rw [← List.append_assoc]
              apply (List.perm_append_singleton _ _).trans
              exact htaken.append_right _

/-- A page is asked for, and the file is saved before it is read. -/
def savedInBetween : List ServingEvent :=
  [.arrive (.get (lit "notes")), .complete 0, .arrive (.post (lit "notes") (lit "new")),
    .complete 1, .complete 0]

end Runs

end CoffeeTable.Server
