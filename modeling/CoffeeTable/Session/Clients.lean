import CoffeeTable.Editor.Provenance
import CoffeeTable.Server.Requests
import CoffeeTable.Session.Browsing

/-!
# Any number of clients

Visitors open files of one tree, each in a page of its own, and a page posts to
the file that it was opened from. The posts of all pages are taken in any order.
Still every file holds what it held from the start or a text that one page
saved, as a whole. And no character gets into a file unless some file had it
from the start or someone typed it.
-/

namespace CoffeeTable.Session

open Browser Ecma Editor Keyboard Server Transition Underscore Page

/-- What surrounds server and pages. The contents of a file reach the script as
the browser reads them from the page, which may change the ends of lines. -/
structure Setting where
  wd : WorkingDirectory
  disk : Files → FileSystem
  truthful : ∀ tree, Truthful (disk tree) tree
  received : JsString → JsString
  mem_received : ∀ {contents c}, c ∈ received contents → c = newline ∨ c ∈ contents

/-- A disk that refuses nothing, and contents read as they are. -/
def onDisk : Setting where
  wd := srvApp
  disk := diskOf
  truthful := truthful_diskOf
  received := id
  mem_received := Or.inr

structure Client where
  file : JsString
  window : Window
  page : Page

structure World where
  tree : Files
  clients : List Client

inductive WorldEvent where
  | visit (file : JsString) (window : Window)
  | page (index : ℕ) (event : Browser.Event)
  /-- The server takes a post that is in flight. -/
  | deliver (index position : ℕ)

/-- The client with another network. -/
def Client.posted (network : Channel JsString) (client : Client) : Client :=
  { client with page := { client.page with saver := { client.page.saver with target := network } } }

def Client.handle (event : Browser.Event) (client : Client) : Client :=
  { client with page := Browser.step client.window client.page event }

section Step

variable (setting : Setting)

def Client.open (file : JsString) (window : Window) (contents : JsString) : Client :=
  ⟨file, window, loaded window (setting.received contents)⟩

def worldStep (world : World) : WorldEvent → World
  | .visit file window =>
      match (getEdit setting.wd (setting.disk world.tree) file).2 with
      | .edit _ _ contents =>
          { world with clients := world.clients ++ [Client.open setting file window contents] }
      | _ => world
  | .page index event =>
      { world with clients := world.clients.modify index (Client.handle event) }
  | .deliver index position =>
      match world.clients[index]? with
      | none => world
      | some client =>
          match client.page.saver.target.take? position with
          | none => world
          | some (content, network) =>
              { tree := serve setting.wd setting.disk world.tree (.post client.file content)
                clients := world.clients.modify index (Client.posted network) }

def runWorld (tree : Files) (events : List WorldEvent) : World :=
  events.foldl (worldStep setting) ⟨tree, []⟩

end Step

/-! ## Modifying one client -/

section Modify

variable {α : Type*} {xs : List α} {f : α → α} {a : α} {n : ℕ}

theorem mem_modify (h : a ∈ xs.modify n f) : a ∈ xs ∨ ∃ b, xs[n]? = some b ∧ a = f b := by
  obtain ⟨i, hi⟩ := List.mem_iff_getElem?.mp h
  rw [List.getElem?_modify] at hi
  obtain ⟨b, hb, heq⟩ := Option.map_eq_some_iff.mp hi
  split_ifs at heq with hn
  · exact Or.inr ⟨b, hn ▸ hb, heq.symm⟩
  · exact Or.inl (heq ▸ List.mem_of_getElem? hb)

theorem mem_modify_of_mem (h : a ∈ xs) : a ∈ xs.modify n f ∨ f a ∈ xs.modify n f := by
  obtain ⟨i, hi⟩ := List.mem_iff_getElem?.mp h
  by_cases heq : n = i
  · right
    apply List.mem_of_getElem? (i := i)
    simp [hi, heq]
  · left
    apply List.mem_of_getElem? (i := i)
    simp [hi, heq]

end Modify

/-! ## One page -/

/-- The posts of a page are texts of states that it saved. -/
structure Tracked (window : Window) (page : Page) : Prop where
  sound : Sound window page
  trailing : page.saver.Trailing saveWait
  sent_eq : page.saver.target.sent = (invocations page.saver.log).map State.text

section Page

variable {window : Window} {page : Page}

theorem tracked_loaded (window : Window) (content : JsString) :
    Tracked window (loaded window content) where
  sound := sound_loaded window content
  trailing := Debounced.trailing_fresh _
  sent_eq := rfl

theorem Tracked.step (h : Tracked window page) (event : Browser.Event) :
    Tracked window (Browser.step window page event) := by
  obtain ⟨posted, hinvoked, htarget⟩ := exists_posted window h.sound.ready event
  refine ⟨h.sound.step event, ?_, ?_⟩
  · rw [saver_step window h.sound.ready]
    exact trailing_foldl h.trailing _
  · rw [hinvoked, htarget, (foldl_post _ posted).1, h.sent_eq, List.map_append]

theorem Tracked.posted (h : Tracked window page) {position : ℕ} {content : JsString}
    {network : Channel JsString}
    (htake : page.saver.target.take? position = some (content, network)) :
    Tracked window { page with saver := { page.saver with target := network } } where
  sound := h.sound.saver _
  trailing := ⟨h.trailing.owns, h.trailing.armed, h.trailing.awaited, h.trailing.le_now,
    h.trailing.follows, h.trailing.paced, h.trailing.paced_call⟩
  sent_eq := (Channel.take?_eq_some htake).1.trans h.sent_eq

theorem Tracked.exists_saved (h : Tracked window page) {position : ℕ} {content : JsString}
    {network : Channel JsString}
    (htake : page.saver.target.take? position = some (content, network)) :
    ∃ state ∈ calls page.saver.log, content = state.text := by
  obtain ⟨-, -, n, -, -, hn⟩ := Channel.take?_eq_some htake
  have hmem := List.mem_of_getElem? hn
  rw [h.sent_eq] at hmem
  obtain ⟨state, hstate, rfl⟩ := List.mem_map.mp hmem
  exact ⟨state, h.trailing.follows.sublist.subset hstate, rfl⟩

end Page

/-! ## One event -/

section Events

variable {setting : Setting} {world : World}

/-- What an event can do to the world. -/
theorem worldStep_cases (setting : Setting) (world : World) (event : WorldEvent) :
    worldStep setting world event = world ∨
      (∃ file window base shown contents, event = .visit file window ∧
        (getEdit setting.wd (setting.disk world.tree) file).2 = .edit base shown contents ∧
        worldStep setting world event =
          { world with clients := world.clients ++ [Client.open setting file window contents] }) ∨
      (∃ index pageEvent, event = .page index pageEvent ∧
        worldStep setting world event =
          { world with clients := world.clients.modify index (Client.handle pageEvent) }) ∨
      ∃ index client position content network, world.clients[index]? = some client ∧
        client.page.saver.target.take? position = some (content, network) ∧
        worldStep setting world event =
          { tree := serve setting.wd setting.disk world.tree (.post client.file content)
            clients := world.clients.modify index (Client.posted network) } := by
  cases event with
  | visit file window =>
      cases hpage : (getEdit setting.wd (setting.disk world.tree) file).2 with
      | edit base shown contents =>
          right; left
          exact ⟨file, window, base, shown, contents, rfl, hpage,
            by simp only [worldStep, hpage]⟩
      | _ => exact Or.inl (by simp only [worldStep, hpage])
  | page index pageEvent => exact Or.inr (Or.inr (Or.inl ⟨index, pageEvent, rfl, rfl⟩))
  | deliver index position =>
      cases hclient : world.clients[index]? with
      | none => exact Or.inl (by simp only [worldStep, hclient])
      | some client =>
          cases htake : client.page.saver.target.take? position with
          | none => exact Or.inl (by simp only [worldStep, hclient, htake])
          | some message =>
              right; right; right
              exact ⟨index, client, position, message.1, message.2, hclient, htake,
                by simp only [worldStep, hclient, htake]⟩

/-- The client after some more events. -/
def Client.After (before after : Client) : Prop :=
  after.file = before.file ∧ calls before.page.saver.log <+: calls after.page.saver.log

theorem after_handle {client : Client} (h : Tracked client.window client.page)
    (event : Browser.Event) : client.After (client.handle event) := by
  refine ⟨rfl, ?_⟩
  have hediting := congrArg Editing.saves (editingOf_step client.window h.sound.ready event)
  show _ <+: (editingOf (Browser.step client.window client.page event)).saves
  rw [hediting]
  cases actOf client.page event with
  | none => exact List.prefix_rfl
  | some act =>
      cases act with
      | key key => exact List.prefix_append _ _
      | confirm expr => exact List.prefix_rfl

theorem after_of_mem (htracked : ∀ client ∈ world.clients, Tracked client.window client.page)
    (event : WorldEvent) {client : Client} (h : client ∈ world.clients) :
    ∃ after ∈ (worldStep setting world event).clients, client.After after := by
  have hsame : client.After client := ⟨rfl, List.prefix_rfl⟩
  rcases worldStep_cases setting world event with
    heq | ⟨file, window, base, shown, contents, -, -, heq⟩ | ⟨index, pageEvent, -, heq⟩ |
      ⟨index, sender, position, content, network, -, -, heq⟩ <;> rw [heq]
  · exact ⟨client, h, hsame⟩
  · exact ⟨client, List.mem_append_left _ h, hsame⟩
  · rcases mem_modify_of_mem h with hkept | hchanged
    · exact ⟨client, hkept, hsame⟩
    · exact ⟨_, hchanged, after_handle (htracked client h) pageEvent⟩
  · rcases mem_modify_of_mem h with hkept | hchanged
    · exact ⟨client, hkept, hsame⟩
    · exact ⟨_, hchanged, hsame⟩

/-- What holds of all clients holds of them after an event that it survives. -/
theorem forall_clients_step {Q : Client → Prop} (h : ∀ client ∈ world.clients, Q client)
    {event : WorldEvent}
    (hopen : ∀ file window base shown contents, event = .visit file window →
      (getEdit setting.wd (setting.disk world.tree) file).2 = .edit base shown contents →
      Q (Client.open setting file window contents))
    (hhandle : ∀ index client pageEvent, event = .page index pageEvent →
      world.clients[index]? = some client → Q client → Q (client.handle pageEvent))
    (hposted : ∀ client position content network, Q client →
      client.page.saver.target.take? position = some (content, network) →
      Q (client.posted network)) :
    ∀ client ∈ (worldStep setting world event).clients, Q client := by
  rcases worldStep_cases setting world event with
    heq | ⟨file, window, base, shown, contents, hevent, hpage, heq⟩ |
      ⟨index, pageEvent, hevent, heq⟩ |
      ⟨index, sender, position, content, network, hsender, htake, heq⟩ <;> rw [heq] <;>
    intro client hclient
  · exact h client hclient
  · rcases List.mem_append.mp hclient with hold | hnew
    · exact h client hold
    · obtain rfl := List.mem_singleton.mp hnew
      exact hopen file window base shown contents hevent hpage
  · rcases mem_modify hclient with hold | ⟨before, hbefore, rfl⟩
    · exact h client hold
    · exact hhandle index before pageEvent hevent hbefore (h before (List.mem_of_getElem? hbefore))
  · rcases mem_modify hclient with hold | ⟨before, hbefore, rfl⟩
    · exact h client hold
    · obtain rfl := Option.some.inj (hsender.symm.trans hbefore)
      exact hposted sender position content network (h sender (List.mem_of_getElem? hbefore)) htake

theorem tracked_worldStep (h : ∀ client ∈ world.clients, Tracked client.window client.page)
    (event : WorldEvent) :
    ∀ client ∈ (worldStep setting world event).clients, Tracked client.window client.page := by
  apply forall_clients_step h
  · intro file window base shown contents hevent hpage
    exact tracked_loaded _ _
  · intro index client pageEvent hevent hclient htracked
    exact htracked.step pageEvent
  · intro client position content network htracked htake
    exact htracked.posted htake

/-- A file after an event: as before, or as a client has just posted it. -/
theorem file_worldStep {event : WorldEvent} {parts : List JsString} {contents : JsString}
    (h : (worldStep setting world event).tree.node parts = some (.file contents)) :
    world.tree.node parts = some (.file contents) ∨
      ∃ client ∈ world.clients, ∃ position network, location setting.wd client.file = parts ∧
        client.page.saver.target.take? position = some (contents, network) := by
  rcases worldStep_cases setting world event with
    heq | ⟨file, window, base, shown, text, -, -, heq⟩ | ⟨index, pageEvent, -, heq⟩ |
      ⟨index, client, position, content, network, hclient, htake, heq⟩ <;> rw [heq] at h
  · exact Or.inl h
  · exact Or.inl h
  · exact Or.inl h
  · rcases file_serve setting.truthful h with hold | ⟨file, hpost, hlocation⟩
    · exact Or.inl hold
    · obtain ⟨rfl, rfl⟩ := Request.post.inj hpost
      exact Or.inr ⟨client, List.mem_of_getElem? hclient, position, network, hlocation, htake⟩

end Events

/-! ## Characters -/

section Characters

variable {p : CodeUnit → Prop}

/-- The editor and the states that it saved only hold such characters. -/
structure Within (p : CodeUnit → Prop) (editing : Editing) : Prop where
  inRange : editing.state.InRange
  units : ∀ c ∈ editing.state.units, p c
  saved : ∀ state ∈ editing.saves, ∀ c ∈ state.units, p c

theorem within_startEditing {content : JsString} (h : ∀ c ∈ content, c = newline ∨ p c) :
    Within p ⟨Editor.startEditing content, []⟩ where
  inRange := (regular_startEditing content).2
  units := by
    intro c hc
    rcases h c ((units_startEditing content).subset hc) with rfl | hp
    · obtain ⟨line, hline, hmem⟩ := List.mem_flatten.mp hc
      exact (Lines.sep_notMem_of_mem_splitOn hline hmem).elim
    · exact hp
  saved := by simp

theorem Within.key {editing : Editing} (h : Within p editing) {key : Key}
    (htyped : ∀ c ∈ typedText editing.state key, p c) : Within p (editing.next (.key key)) := by
  have hunits : ∀ c ∈ (handleKey editing.state key).units, p c := by
    intro c hc
    rcases List.mem_append.mp (units_subset h.inRange key hc) with hold | hnew
    · exact h.units c hold
    · exact htyped c hnew
  refine ⟨h.inRange.handleKey key, hunits, fun state hstate ↦ ?_⟩
  rcases List.mem_append.mp hstate with hold | hnew
  · exact h.saved state hold
  · have hhandled := handleKey_of_savedBy.1 state (Option.mem_toList.mp hnew)
    rw [hhandled] at hunits
    exact hunits

theorem Within.confirm {editing : Editing} (h : Within p editing) (expr : JsString) :
    Within p (editing.next (.confirm expr)) where
  inRange := inRange_confirm h.inRange expr
  units := by
    have hunits : (Editor.confirm editing.state expr).units = editing.state.units := by
      rw [State.units, buffer_confirm, State.units]
    intro c hc
    exact h.units c (hunits ▸ hc)
  saved := h.saved

/-- What an event types into the page that it reaches. -/
def typedIn (world : World) : WorldEvent → JsString
  | .page index event =>
      match world.clients[index]? with
      | none => []
      | some client =>
          match actOf client.page event with
          | some (.key key) => typedText client.page.state key
          | _ => []
  | _ => []

/-- All files and pages only hold such characters and newlines. -/
structure Contained (setting : Setting) (p : CodeUnit → Prop) (world : World) : Prop where
  clients : ∀ client ∈ world.clients,
    Tracked client.window client.page ∧ Within p (editingOf client.page)
  files : ∀ parts contents, world.tree.node parts = some (.file contents) →
    ∀ c ∈ contents, c = newline ∨ p c

variable {setting : Setting} {world : World}

theorem within_handle {client : Client} {index : ℕ} (hclient : world.clients[index]? = some client)
    (htracked : Tracked client.window client.page) (h : Within p (editingOf client.page))
    {event : Browser.Event} (htyped : ∀ c ∈ typedIn world (.page index event), p c) :
    Within p (editingOf (client.handle event).page) := by
  have hediting : editingOf (client.handle event).page = _ :=
    editingOf_step client.window htracked.sound.ready event
  rw [hediting]
  simp only [typedIn, hclient] at htyped
  cases hact : actOf client.page event with
  | none => exact h
  | some act =>
      simp only [hact] at htyped
      cases act with
      | key key => exact h.key htyped
      | confirm expr => exact h.confirm expr

/-- The contents that a visit shows, as the script reads them. -/
theorem Contained.received (h : Contained setting p world) {file base shown contents : JsString}
    (hpage : (getEdit setting.wd (setting.disk world.tree) file).2 = .edit base shown contents) :
    ∀ c ∈ setting.received contents, c = newline ∨ p c := by
  intro c hc
  rcases setting.mem_received hc with hnewline | hcontents
  · exact Or.inl hnewline
  · rcases shown_of_getEdit (setting.truthful world.tree) hpage with hfile | ⟨rfl, -⟩
    · exact h.files _ contents hfile c hcontents
    · cases hcontents

theorem Contained.step (h : Contained setting p world) {event : WorldEvent}
    (htyped : ∀ c ∈ typedIn world event, p c) :
    Contained setting p (worldStep setting world event) where
  clients := by
    apply forall_clients_step h.clients
    · intro file window base shown contents hevent hpage
      exact ⟨tracked_loaded _ _, within_startEditing (h.received hpage)⟩
    · rintro index client pageEvent rfl hclient ⟨htracked, hwithin⟩
      exact ⟨htracked.step pageEvent, within_handle hclient htracked hwithin htyped⟩
    · rintro client position content network ⟨htracked, hwithin⟩ htake
      exact ⟨htracked.posted htake, hwithin⟩
  files := by
    intro parts contents hnode c hc
    rcases file_worldStep hnode with hold | ⟨client, hclient, position, network, -, htake⟩
    · exact h.files parts contents hold c hc
    · obtain ⟨htracked, hwithin⟩ := h.clients client hclient
      obtain ⟨state, hstate, rfl⟩ := htracked.exists_saved htake
      exact (mem_units_of_mem_text hc).imp_right (hwithin.saved state hstate c)

end Characters

/-! ## Runs -/

section Runs

variable (setting : Setting) (tree : Files) (events : List WorldEvent)

/-- One of the clients saved this text in this place. -/
def World.Saved (wd : WorkingDirectory) (world : World) (parts : List JsString)
    (contents : JsString) : Prop :=
  ∃ client ∈ world.clients, location wd client.file = parts ∧
    ∃ state ∈ calls client.page.saver.log, contents = state.text

/-- All clients are tracked, and all files are old or saved. -/
structure Accounted (setting : Setting) (tree : Files) (world : World) : Prop where
  tracked : ∀ client ∈ world.clients, Tracked client.window client.page
  files : ∀ parts contents, world.tree.node parts = some (.file contents) →
    tree.node parts = some (.file contents) ∨ world.Saved setting.wd parts contents

variable {setting tree}

theorem Accounted.step {world : World} (h : Accounted setting tree world) (event : WorldEvent) :
    Accounted setting tree (worldStep setting world event) := by
  refine ⟨tracked_worldStep h.tracked event, fun parts contents hnode ↦ ?_⟩
  have hsaved (hworld : world.Saved setting.wd parts contents) :
      (worldStep setting world event).Saved setting.wd parts contents := by
    obtain ⟨client, hclient, hlocation, state, hstate, htext⟩ := hworld
    obtain ⟨after, hmem, hfile, hcalls⟩ := after_of_mem h.tracked event hclient
    exact ⟨after, hmem, by rw [hfile, hlocation], state, hcalls.subset hstate, htext⟩
  rcases file_worldStep hnode with hbefore | ⟨client, hclient, position, network, hlocation, htake⟩
  · exact (h.files parts contents hbefore).imp_right hsaved
  · right
    apply hsaved
    exact ⟨client, hclient, hlocation, (h.tracked client hclient).exists_saved htake⟩

variable (setting tree)

/-- One visitor types into an old file, another into a new one. -/
def twoVisitors : List WorldEvent :=
  [.visit (lit "notes") lowWindow, .visit (lit "other") lowWindow, .page 0 (.key (character 'i')),
    .page 1 (.key (character 'i')), .page 0 (.key (character 'x')),
    .page 1 (.key (character 'y')), .page 0 (.elapse 1000), .page 0 (.expire 0),
    .page 1 (.elapse 1000), .page 1 (.expire 0), .deliver 1 0, .deliver 0 0]

/-- However many clients edit, each character of a file was in some file at
first or was typed in insert mode into a page, apart from the newlines. -/
theorem characters_of_files (parts : List JsString) (contents : JsString)
    (h : (runWorld setting tree events).tree.node parts = some (.file contents)) :
    ∀ c ∈ contents, c = newline ∨
      (∃ place old, tree.node place = some (.file old) ∧ c ∈ old) ∨
      c ∈ gathered (worldStep setting) typedIn ⟨tree, []⟩ events := by
  have hstart : Contained setting (fun c ↦
      (∃ place old, tree.node place = some (.file old) ∧ c ∈ old) ∨
        c ∈ gathered (worldStep setting) typedIn ⟨tree, []⟩ events) ⟨tree, []⟩ :=
    ⟨by simp, fun place old hnode c hc ↦ Or.inr (Or.inl ⟨place, old, hnode, hc⟩)⟩
  have hrun := throughout_of_along (fun _ _ hworld htyped ↦ hworld.step htyped) hstart
    (along_of_gathered fun _ hc ↦ Or.inr hc)
  exact hrun.last.files parts contents h

theorem characters_of_files_twoVisitors :
    unit 'x' = newline ∨
      (∃ place old, oneFile.node place = some (.file old) ∧ unit 'x' ∈ old) ∨
      unit 'x' ∈ gathered (worldStep onDisk) typedIn ⟨oneFile, []⟩ twoVisitors :=
  characters_of_files onDisk oneFile twoVisitors [lit "srv", lit "app", lit "notes"] (lit "xold")
    (by decide +kernel) (unit 'x') (by decide)

end Runs

end CoffeeTable.Session
