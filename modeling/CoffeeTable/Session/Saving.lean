import CoffeeTable.Editor.Handler
import CoffeeTable.Server.Edit
import CoffeeTable.Transition.Channel

/-!
# Saving from one client

A handled key arms the save timer with the state it leads to. When the timer
fires, the text of that state is posted. The server takes posted texts in any
order and writes each over the file; neither side numbers them. So at rest the
file holds the text that was taken last, while the client holds the text that
was sent last.
-/

namespace CoffeeTable.Session

open Ecma Editor Server Transition

structure Opened where
  wd : WorkingDirectory
  file : JsString
  target : JsString
  accepted : makeAbsolute wd file = some target

abbrev Disk := JsString → Option JsString

/-- The file system of a disk. Writing succeeds. -/
def fileSystem (disk : Disk) : FileSystem where
  stat := fun path ↦ if (disk path).isSome then .ok false else .error ⟨lit "ENOENT"⟩
  readdir := fun _ ↦ .error ⟨lit "ENOTDIR"⟩
  readFile := fun path ↦ (disk path).elim (.error ⟨lit "ENOENT"⟩) .ok
  writeFile := fun _ _ ↦ .ok ()

def applyAccess (disk : Disk) : Access → Disk
  | .writeFile target content => fun path ↦ if path = target then some content else disk path
  | _ => disk

def takePost (opened : Opened) (disk : Disk) (content : JsString) : Disk :=
  (postEdit opened.wd (fileSystem disk) opened.file content).1.foldl applyAccess disk

structure System where
  client : State
  /-- The state with which the save timer is armed. -/
  timer : Option State
  handled : Bool
  network : Channel JsString
  disk : Disk

inductive Event where
  | key (key : Key)
  | fire
  | deliver (index : ℕ)
  deriving DecidableEq

def step (opened : Opened) (sys : System) : Event → System
  | .key key =>
      { sys with
        client := handleKey sys.client key
        timer := (savedBy sys.client key).or sys.timer
        handled := sys.handled || (savedBy sys.client key).isSome }
  | .fire =>
      match sys.timer with
      | none => sys
      | some state => { sys with timer := none, network := sys.network.send state.text }
  | .deliver index =>
      match sys.network.take? index with
      | none => sys
      | some (content, network) =>
          { sys with network := network, disk := takePost opened sys.disk content }

def start (content : JsString) (disk : Disk) : System where
  client := startEditing content
  timer := none
  handled := false
  network := .empty
  disk := disk

/-- A key was handled, the timer is off, and no posted text is in flight. -/
structure System.Quiet (sys : System) : Prop where
  handled : sys.handled = true
  timer_eq : sys.timer = none
  inFlight_eq : sys.network.inFlight = []

instance (sys : System) : Decidable sys.Quiet :=
  decidable_of_iff (sys.handled = true ∧ sys.timer = none ∧ sys.network.inFlight = [])
    ⟨fun h ↦ ⟨h.1, h.2.1, h.2.2⟩, fun h ↦ ⟨h.handled, h.timer_eq, h.inFlight_eq⟩⟩

def Current (opened : Opened) (sys : System) : Prop :=
  sys.disk opened.target = some sys.client.text

instance (opened : Opened) (sys : System) : Decidable (Current opened sys) :=
  inferInstanceAs (Decidable (_ = _))

/-! ## The texts that travel -/

theorem text_resetCount (s : State) : (resetCount s).text = s.text := rfl

theorem handleKey_of_savedBy {s : State} {k : Key} :
    (∀ t, savedBy s k = some t → handleKey s k = t) ∧
      (savedBy s k = none → (handleKey s k).text = s.text) := by
  cases hpress : press s k with
  | none => simp [savedBy, handleKey, hpress]
  | some result =>
      cases result with
      | ok t => simp [savedBy, handleKey, hpress]
      | error fault => simp [savedBy, handleKey, hpress, text_resetCount]

theorem takePost_target (opened : Opened) (disk : Disk) (content : JsString) :
    takePost opened disk content opened.target = some content := by
  rw [takePost, (postEdit_of_some opened.accepted (fileSystem disk) content).1]
  simp [applyAccess]

/-- The file holds what was taken last, and the timer or the message sent last
holds the text of the client. -/
structure Consistent (opened : Opened) (sys : System) : Prop where
  text_of_timer : ∀ state, sys.timer = some state → state.text = sys.client.text
  text_of_sent : sys.timer = none → sys.handled = true →
    sys.network.sent.getLast? = some sys.client.text
  disk_of_taken : ∀ n, sys.network.taken = some n →
    sys.disk opened.target = sys.network.sent[n]?

theorem Consistent.step {opened : Opened} {sys : System} (h : Consistent opened sys)
    (event : Event) : Consistent opened (step opened sys event) := by
  obtain ⟨htimer, hsent, hdisk⟩ := h
  cases event with
  | key key =>
      obtain ⟨hsaved, hkept⟩ := handleKey_of_savedBy (s := sys.client) (k := key)
      cases hsave : savedBy sys.client key with
      | some t =>
          have hclient : handleKey sys.client key = t := hsaved t hsave
          simp only [Session.step, hsave, hclient]
          refine ⟨fun state hstate ↦ ?_, fun hoff ↦ ?_, hdisk⟩
          · rw [← Option.some.inj hstate]
          · cases hoff
      | none =>
          have htext : (handleKey sys.client key).text = sys.client.text := hkept hsave
          simp only [Session.step, hsave, Option.none_or, Option.isSome_none, Bool.or_false]
          refine ⟨fun state hstate ↦ ?_, fun hoff hhandled ↦ ?_, hdisk⟩
          · rw [htext]
            exact htimer state hstate
          · rw [htext]
            exact hsent hoff hhandled
  | fire =>
      cases harmed : sys.timer with
      | none =>
          simp only [Session.step, harmed]
          exact ⟨htimer, hsent, hdisk⟩
      | some state =>
          simp only [Session.step, harmed]
          refine ⟨by simp, fun _ _ ↦ ?_, fun n hn ↦ ?_⟩
          · simp [htimer state harmed]
          · have hlt := sys.network.taken_lt n hn
            rw [Channel.sent_send, List.getElem?_append_left hlt]
            exact hdisk n hn
  | deliver index =>
      cases htake : sys.network.take? index with
      | none =>
          simp only [Session.step, htake]
          exact ⟨htimer, hsent, hdisk⟩
      | some message =>
          obtain ⟨content, network⟩ := message
          obtain ⟨hsame, -, n, -, htaken, hcontent⟩ := Channel.take?_eq_some htake
          simp only [Session.step, htake]
          refine ⟨htimer, fun hoff hhandled ↦ ?_, fun m hm ↦ ?_⟩
          · rw [hsame]
            exact hsent hoff hhandled
          · obtain rfl := Option.some.inj (htaken.symm.trans hm)
            show takePost opened sys.disk content opened.target = network.sent[n]?
            rw [takePost_target, hsame, hcontent]

theorem consistent_start (opened : Opened) (content : JsString) (disk : Disk) :
    Consistent opened (start content disk) where
  text_of_timer := by simp [start]
  text_of_sent := by simp [start]
  disk_of_taken := by simp [start, Channel.empty]

/-! ## Taking the posted texts in the order of sending -/

def Event.TakesOldest : Event → Prop
  | .deliver index => index = 0
  | _ => True

theorem inOrder_step {opened : Opened} {sys : System} (h : sys.network.InOrder) {event : Event}
    (hevent : event.TakesOldest) : (step opened sys event).network.InOrder := by
  cases event with
  | key key => exact h
  | fire =>
      cases harmed : sys.timer with
      | none => simpa only [step, harmed] using h
      | some state => simpa only [step, harmed] using h.send state.text
  | deliver index =>
      obtain rfl : index = 0 := hevent
      cases htake : sys.network.take? 0 with
      | none => simpa only [step, htake] using h
      | some message => simpa only [step, htake] using h.take htake

/-! ## The file at rest -/

def runSystem (opened : Opened) (content : JsString) (disk : Disk) (events : List Event) :
    System :=
  events.foldl (step opened) (start content disk)

theorem consistent_runSystem (opened : Opened) (content : JsString) (disk : Disk)
    (events : List Event) : Consistent opened (runSystem opened content disk events) := by
  have hrun : Throughout (step opened) (Consistent opened) (start content disk) events :=
    throughout_of_step (fun _ event h ↦ h.step event) (consistent_start opened content disk) events
  exact hrun.last

theorem inOrder_runSystem (opened : Opened) (content : JsString) (disk : Disk)
    {events : List Event} (hevents : ∀ event ∈ events, event.TakesOldest) :
    (runSystem opened content disk events).network.InOrder := by
  have hrun : Throughout (step opened) (fun sys ↦ sys.network.InOrder) (start content disk)
      events :=
    throughout_of_along (fun _ _ h hevent ↦ inOrder_step h hevent) Channel.inOrder_empty
      (along_of_forall_mem hevents _)
  exact hrun.last

/-- The text sent last is the text of the client. At rest the file holds the
text taken last, so it is current if these two are the same message, which is
so if the server always takes the oldest text. -/
theorem quiet_file (opened : Opened) (content : JsString) (disk : Disk) (events : List Event)
    (hquiet : (runSystem opened content disk events).Quiet) :
    let sys := runSystem opened content disk events
    (∃ n, sys.network.taken = some n ∧ sys.disk opened.target = sys.network.sent[n]? ∧
      sys.network.sent.getLast? = some sys.client.text ∧
      (n + 1 = sys.network.sent.length → Current opened sys)) ∧
    ((∀ event ∈ events, event.TakesOldest) → Current opened sys) := by
  intro sys
  obtain ⟨-, hsent, hdisk⟩ := consistent_runSystem opened content disk events
  have hlast : sys.network.sent.getLast? = some sys.client.text :=
    hsent hquiet.timer_eq hquiet.handled
  have hne : sys.network.sent ≠ [] := by
    intro hnil
    rw [hnil] at hlast
    cases hlast
  obtain ⟨n, hn⟩ := Channel.exists_taken hquiet.inFlight_eq hne
  have hfile : sys.disk opened.target = sys.network.sent[n]? := hdisk n hn
  have hnewest (h : n + 1 = sys.network.sent.length) : Current opened sys := by
    rw [Current, hfile, ← hlast, List.getLast?_eq_getElem?, ← h, Nat.add_sub_cancel]
  refine ⟨⟨n, hn, hfile, hlast, hnewest⟩, fun hevents ↦ hnewest ?_⟩
  exact (inOrder_runSystem opened content disk hevents).taken_succ hquiet.inFlight_eq hn

def rootFile : Opened where
  wd := ⟨[], by simp⟩
  file := lit "a"
  target := lit "/a"
  accepted := by decide

def inTurn : List Event :=
  [.key (key "i"), .key (key "x"), .fire, .key (key "y"), .fire, .deliver 0, .deliver 0]

def overtaking : List Event :=
  [.key (key "i"), .key (key "x"), .fire, .key (key "y"), .fire, .deliver 1, .deliver 0]

theorem quiet_file_inTurn :
    Current rootFile (runSystem rootFile (lit "a") (fun _ ↦ none) inTurn) ∧
      (runSystem rootFile (lit "a") (fun _ ↦ none) inTurn).client.text = lit "xya" := by
  have hquiet : (runSystem rootFile (lit "a") (fun _ ↦ none) inTurn).Quiet := by decide
  have horder : ∀ event ∈ inTurn, event.TakesOldest := by simp [inTurn, Event.TakesOldest]
  refine ⟨(quiet_file rootFile (lit "a") (fun _ ↦ none) inTurn hquiet).2 horder, by decide⟩

theorem not_current_after_overtaking :
    (runSystem rootFile (lit "a") (fun _ ↦ none) overtaking).Quiet ∧
      ¬ Current rootFile (runSystem rootFile (lit "a") (fun _ ↦ none) overtaking) := by
  decide

end CoffeeTable.Session
