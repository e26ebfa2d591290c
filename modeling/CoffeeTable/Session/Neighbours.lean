import CoffeeTable.Server.Folders
import CoffeeTable.Session.Clients

/-!
# Pages next to each other

Among any number of clients each page runs as if it were alone: what the others
do reaches it through the contents with which it was opened, and never after.
If no other page was opened from its file, then the disk is the one that the
page alone would have written, and at rest the file holds the text of the page.
-/

namespace CoffeeTable.Session

open Browser Ecma Editor Server Transition Underscore

/-! ## The events of one client -/

/-- An event as one client meets it. -/
def ownEvent (index : ℕ) : WorldEvent → Option SiteEvent
  | .visit _ _ => none
  | .page i event => if i = index then some (.page event) else none
  | .deliver i position => if i = index then some (.deliver position) else none

def Client.step (client : Client) : SiteEvent → Client
  | .page event => client.handle event
  | .deliver position =>
      match client.page.saver.target.take? position with
      | none => client
      | some (_, network) => client.posted network

section Own

variable {setting : Setting} {world : World} {index : ℕ} {client : Client}

theorem same_step (client : Client) (event : SiteEvent) :
    (client.step event).file = client.file ∧ (client.step event).window = client.window := by
  cases event with
  | page event => exact ⟨rfl, rfl⟩
  | deliver position =>
      rw [Client.step]
      split <;> exact ⟨rfl, rfl⟩

/-- The page of a site does what the page of a client does. -/
theorem page_siteStep (opened : Opened) {site : Site} (h : client.page = site.page)
    (event : SiteEvent) :
    (client.step event).page = (siteStep client.window opened site event).page := by
  cases event with
  | page event => exact congrArg (Browser.step client.window · event) h
  | deliver position =>
      rw [Client.step, siteStep, ← h]
      cases client.page.saver.target.take? position with
      | none => exact h
      | some message => rfl

theorem page_foldl (opened : Opened) {site : Site} (h : client.page = site.page)
    (events : List SiteEvent) :
    (events.foldl Client.step client).page =
      (events.foldl (siteStep client.window opened) site).page := by
  induction events generalizing client site with
  | nil => exact h
  | cons event events ih =>
      have hrest := ih (page_siteStep opened h event)
      rwa [(same_step client event).2] at hrest

/-- A client meets its own events only. -/
theorem client_worldStep (h : world.clients[index]? = some client) (event : WorldEvent) :
    (worldStep setting world event).clients[index]? =
      some ((ownEvent index event).toList.foldl Client.step client) := by
  cases event with
  | visit file window =>
      have hlt : index < world.clients.length := (List.getElem?_eq_some_iff.mp h).1
      simp only [worldStep]
      split
      · rw [List.getElem?_append_left hlt, h]
        rfl
      · exact h
  | page i event =>
      simp only [worldStep, ownEvent, List.getElem?_modify, h]
      split_ifs <;> rfl
  | deliver i position =>
      simp only [worldStep, ownEvent]
      by_cases hi : i = index
      · subst hi
        simp only [h, if_pos, Option.toList_some, List.foldl_cons, List.foldl_nil, Client.step]
        cases client.page.saver.target.take? position <;> simp [h]
      · cases hother : world.clients[i]? with
        | none => simpa [hi] using h
        | some other =>
            cases htake : other.page.saver.target.take? position <;> simp [htake, hi, h]

theorem client_foldl (h : world.clients[index]? = some client) (events : List WorldEvent) :
    (events.foldl (worldStep setting) world).clients[index]? =
      some ((events.filterMap (ownEvent index)).foldl Client.step client) := by
  induction events generalizing world client with
  | nil => exact h
  | cons event events ih =>
      rw [List.foldl_cons, ih (client_worldStep h event), List.filterMap_cons]
      cases ownEvent index event <;> rfl

theorem same_foldl (client : Client) (events : List SiteEvent) :
    (events.foldl Client.step client).file = client.file ∧
      (events.foldl Client.step client).window = client.window := by
  induction events generalizing client with
  | nil => exact ⟨rfl, rfl⟩
  | cons event events ih =>
      obtain ⟨hfile, hwindow⟩ := ih (client.step event)
      obtain ⟨hfile', hwindow'⟩ := same_step client event
      exact ⟨hfile.trans hfile', hwindow.trans hwindow'⟩

end Own

/-! ## One page of many -/

section Alone

variable (setting : Setting) (tree : Files)

/-- How a client came to be. -/
theorem exists_visit {events : List WorldEvent} {index : ℕ} {client : Client}
    (h : (runWorld setting tree events).clients[index]? = some client) :
    ∃ before file window after base shown contents,
      events = before ++ .visit file window :: after ∧
      (getEdit setting.wd (setting.disk (runWorld setting tree before).tree) file).2 =
        .edit base shown contents ∧
      (worldStep setting (runWorld setting tree before) (.visit file window)).clients[index]? =
        some (Client.open setting file window contents) := by
  induction events using List.reverseRecOn generalizing client with
  | nil => cases h
  | append_singleton events event ih =>
      have hrun : runWorld setting tree (events ++ [event]) =
          worldStep setting (runWorld setting tree events) event := List.foldl_concat _ _ _ _
      cases hbefore : (runWorld setting tree events).clients[index]? with
      | some previous =>
          obtain ⟨before, file, window, after, base, shown, contents, rfl, hopened⟩ := ih hbefore
          exact ⟨before, file, window, after ++ [event], base, shown, contents, by simp, hopened⟩
      | none =>
          have hlength : (runWorld setting tree events).clients.length ≤ index :=
            List.getElem?_eq_none_iff.mp hbefore
          rw [hrun] at h
          rcases worldStep_cases setting (runWorld setting tree events) event with
            heq | ⟨file, window, base, shown, contents, rfl, hpage, heq⟩ | ⟨i, pageEvent, -, heq⟩ |
              ⟨i, sender, position, content, network, -, -, heq⟩
          · rw [heq, hbefore] at h
            cases h
          · refine ⟨events, file, window, [], base, shown, contents, rfl, hpage, ?_⟩
            rw [heq] at h ⊢
            rw [List.getElem?_append_right hlength] at h ⊢
            obtain ⟨hlt, -⟩ := List.getElem?_eq_some_iff.mp h
            simp only [List.length_singleton, Nat.lt_one_iff] at hlt
            rw [hlt]
            rfl
          · rw [heq] at h
            simp [List.getElem?_modify, hbefore] at h
          · rw [heq] at h
            simp [List.getElem?_modify, hbefore] at h

/-- A page among others is the page of its own events alone, on the contents
that its file had when it was opened. -/
theorem client_alone (events : List WorldEvent) {index : ℕ} {client : Client}
    (h : (runWorld setting tree events).clients[index]? = some client) :
    ∃ before after base shown contents,
      events = before ++ .visit client.file client.window :: after ∧
      (getEdit setting.wd (setting.disk (runWorld setting tree before).tree) client.file).2 =
        .edit base shown contents ∧
      ∀ (opened : Opened) (disk : Disk), client.page =
        (runSite client.window opened (setting.received contents) disk
          (after.filterMap (ownEvent index))).page := by
  obtain ⟨before, file, window, after, base, shown, contents, rfl, hpage, hopened⟩ :=
    exists_visit setting tree h
  rw [runWorld, List.foldl_append, List.foldl_cons] at h
  obtain rfl := Option.some.inj ((client_foldl hopened after).symm.trans h)
  rw [(same_foldl _ _).1, (same_foldl _ _).2]
  exact ⟨before, after, base, shown, contents, rfl, hpage, fun opened disk ↦
    page_foldl opened rfl _⟩

theorem client_alone_twoVisitors :
    ∃ client, (runWorld onDisk oneFile twoVisitors).clients[1]? = some client ∧
      ∃ before after base shown contents,
        twoVisitors = before ++ .visit client.file client.window :: after ∧
        (getEdit srvApp (diskOf (runWorld onDisk oneFile before).tree) client.file).2 =
          .edit base shown contents ∧
        ∀ (opened : Opened) (disk : Disk), client.page =
          (runSite client.window opened contents disk (after.filterMap (ownEvent 1))).page := by
  obtain ⟨client, hclient⟩ : ∃ client, (runWorld onDisk oneFile twoVisitors).clients[1]? =
      some client := Option.isSome_iff_exists.mp (by decide +kernel)
  exact ⟨client, hclient, client_alone onDisk oneFile twoVisitors hclient⟩

end Alone

/-! ## A file of one page -/

/-- The contents of the file at a place. -/
def contentAt (tree : Files) (place : List JsString) : Option JsString :=
  match tree.node place with
  | some (.file contents) => some contents
  | _ => none

/-- No other client has the place. -/
def Alone (wd : WorkingDirectory) (index : ℕ) (place : List JsString) (world : World) : Prop :=
  ∀ i other, world.clients[i]? = some other → location wd other.file = place → i = index

/-- The site shows the page of the client and the file at its place. -/
structure Mirrors (setting : Setting) (index : ℕ) (window : Window) (opened : Opened)
    (world : World) (site : Site) : Prop where
  wd_eq : opened.wd = setting.wd
  client : ∃ client, world.clients[index]? = some client ∧ client.file = opened.file ∧
    client.window = window ∧ client.page = site.page
  file : contentAt world.tree (location setting.wd opened.file) = site.disk opened.target

theorem alone_of_files {wd : WorkingDirectory} {index : ℕ} {place : List JsString} {world : World}
    {files : List JsString} (hfiles : world.clients.map Client.file = files)
    (h : ∀ i file, files[i]? = some file → location wd file = place → i = index) :
    Alone wd index place world := by
  intro i other hother hplace
  apply h i other.file ?_ hplace
  rw [← hfiles, List.getElem?_map, hother, Option.map_some]

section Mirror

variable {setting : Setting} {world : World} {index : ℕ} {window : Window} {opened : Opened}
  {site : Site}

theorem alone_of_foldl {place : List JsString} (events : List WorldEvent)
    (h : Alone setting.wd index place (events.foldl (worldStep setting) world)) :
    Alone setting.wd index place world := by
  intro i other hother hplace
  apply h i _ (client_foldl hother events)
  rw [(same_foldl _ _).1, hplace]

theorem writable_serve {wd : WorkingDirectory} {disk : Files → FileSystem}
    (hdisk : ∀ tree, Truthful (disk tree) tree) {tree : Files} {place : List JsString}
    (h : tree.Writable place) (request : Request) :
    (serve wd disk tree request).Writable place where
  ne_nil := h.ne_nil
  parent_eq := (directory_serve_iff hdisk tree request _).mpr h.parent_eq
  node_ne := (directory_serve_iff hdisk tree request _).not.mpr h.node_ne
  entry := h.entry

theorem savable_worldStep (setting : Setting) {file : JsString}
    (h : Savable setting.wd world.tree file) (event : WorldEvent) :
    Savable setting.wd (worldStep setting world event).tree file := by
  refine ⟨h.ne_nil, h.getLast?_ne, ?_⟩
  rcases worldStep_cases setting world event with
    heq | ⟨visited, window, base, shown, contents, -, -, heq⟩ | ⟨i, pageEvent, -, heq⟩ |
      ⟨i, sender, position, content, network, -, -, heq⟩ <;> rw [heq]
  · exact h.writable
  · exact h.writable
  · exact h.writable
  · exact writable_serve setting.truthful h.writable _

/-- A post to another place. -/
theorem contentAt_serve_of_ne {wd : WorkingDirectory} {disk : Files → FileSystem}
    (hdisk : ∀ tree, Truthful (disk tree) tree) (tree : Files) {file content : JsString}
    {place : List JsString} (h : location wd file ≠ place) :
    contentAt (serve wd disk tree (.post file content)) place = contentAt tree place := by
  have hplace : place ∉ (written wd disk tree (.post file content)).map Prod.fst := by
    simp only [written]
    split_ifs <;> simp [Ne.symm h]
  rw [contentAt, node_serve hdisk, overwrite_of_notMem hplace, contentAt]

/-- A post to the place. -/
theorem contentAt_serve {wd : WorkingDirectory} {disk : Files → FileSystem}
    (hdisk : ∀ tree, Truthful (disk tree) tree) {tree : Files} {file content : JsString}
    (hokay : (answer wd disk tree (.post file content)).2 = some .okay) :
    contentAt (serve wd disk tree (.post file content)) (location wd file) = some content := by
  rw [contentAt, node_serve hdisk, written, if_pos hokay, overwrite_cons, overwrite_nil,
    Function.update_self]

theorem file_mirrored (hdisk : ∀ tree, Permissive (setting.disk tree) tree)
    (h : Mirrors setting index window opened world site)
    (hsavable : Savable setting.wd world.tree opened.file)
    (halone : Alone setting.wd index (location setting.wd opened.file) world)
    (event : WorldEvent) :
    contentAt (worldStep setting world event).tree (location setting.wd opened.file) =
      ((ownEvent index event).toList.foldl (siteStep window opened) site).disk
        opened.target := by
  obtain ⟨client, hclient, hfile, -, hpage⟩ := h.client
  cases event with
  | visit file window =>
      simp only [worldStep]
      split <;> exact h.file
  | page i event =>
      simp only [ownEvent]
      split_ifs <;> exact h.file
  | deliver i position =>
      simp only [worldStep, ownEvent]
      by_cases hi : i = index
      · subst hi
        simp only [hclient, if_pos, Option.toList_some, List.foldl_cons, List.foldl_nil, siteStep,
          ← hpage]
        cases client.page.saver.target.take? position with
        | none => exact h.file
        | some message =>
            have haccepted : makeAbsolute setting.wd client.file ≠ none := by
              rw [hfile, ← h.wd_eq, opened.accepted]
              exact Option.some_ne_none _
            rw [← hfile] at hsavable ⊢
            have hokay := answer_okay (hdisk world.tree) haccepted hsavable message.1
            exact (contentAt_serve setting.truthful hokay).trans
              (takePost_target opened site.disk message.1).symm
      · rw [if_neg hi]
        cases hother : world.clients[i]? with
        | none => exact h.file
        | some other =>
            have hplace : location setting.wd other.file ≠ location setting.wd opened.file :=
              fun hplace ↦ hi (halone i other hother hplace)
            dsimp only
            cases other.page.saver.target.take? position with
            | none => exact h.file
            | some message =>
                exact (contentAt_serve_of_ne setting.truthful world.tree hplace).trans h.file

theorem Mirrors.step (hdisk : ∀ tree, Permissive (setting.disk tree) tree)
    (h : Mirrors setting index window opened world site)
    (hsavable : Savable setting.wd world.tree opened.file)
    (halone : Alone setting.wd index (location setting.wd opened.file) world)
    (event : WorldEvent) :
    Mirrors setting index window opened (worldStep setting world event)
      ((ownEvent index event).toList.foldl (siteStep window opened) site) where
  wd_eq := h.wd_eq
  client := by
    obtain ⟨client, hclient, hfile, rfl, hpage⟩ := h.client
    obtain ⟨hsame, hwindow⟩ := same_foldl client (ownEvent index event).toList
    exact ⟨_, client_worldStep hclient event, hsame.trans hfile, hwindow,
      page_foldl opened hpage _⟩
  file := file_mirrored hdisk h hsavable halone event

theorem Mirrors.foldl (hdisk : ∀ tree, Permissive (setting.disk tree) tree)
    (h : Mirrors setting index window opened world site)
    (hsavable : Savable setting.wd world.tree opened.file) (events : List WorldEvent)
    (halone : Alone setting.wd index (location setting.wd opened.file)
      (events.foldl (worldStep setting) world)) :
    Mirrors setting index window opened (events.foldl (worldStep setting) world)
      ((events.filterMap (ownEvent index)).foldl (siteStep window opened) site) := by
  induction events generalizing world site with
  | nil => exact h
  | cons event events ih =>
      have hnext := h.step hdisk hsavable (alone_of_foldl (event :: events) halone) event
      have hrest := ih hnext (savable_worldStep setting hsavable event) halone
      rw [List.filterMap_cons]
      cases howned : ownEvent index event with
      | none => rwa [howned] at hrest
      | some owned => rwa [howned] at hrest

end Mirror

/-! ## Rest -/

/-- The page of the client is at rest, whatever is on the disk. -/
abbrev Client.Quiet (client : Client) : Prop := Site.Quiet ⟨client.page, fun _ ↦ none⟩

instance (client : Client) : Decidable client.Quiet :=
  decidable_of_iff (calls client.page.saver.log ≠ [] ∧ client.page.saver.timeout = none ∧
    client.page.saver.target.inFlight = [])
    ⟨fun h ↦ ⟨h.1, h.2.1, h.2.2⟩, fun h ↦ ⟨h.calls_ne_nil, h.timeout_eq, h.inFlight_eq⟩⟩

section Rest

variable {setting : Setting} {tree : Files}

theorem Client.Quiet.site {client : Client} (h : client.Quiet) {site : Site}
    (hpage : client.page = site.page) : site.Quiet := by
  obtain ⟨page, disk⟩ := site
  subst hpage
  exact ⟨h.calls_ne_nil, h.timeout_eq, h.inFlight_eq⟩

theorem savable_runWorld (setting : Setting) {file : JsString}
    (h : Savable setting.wd tree file) (events : List WorldEvent) :
    Savable setting.wd (runWorld setting tree events).tree file := by
  have hrun : Throughout (worldStep setting) (fun world ↦ Savable setting.wd world.tree file)
      ⟨tree, []⟩ events :=
    throughout_of_step (fun _ event hworld ↦ savable_worldStep setting hworld event) h events
  exact hrun.last

theorem accepted_of_shown {file base shown contents : JsString} {fs : FileSystem}
    {wd : WorkingDirectory} (h : (getEdit wd fs file).2 = .edit base shown contents) :
    makeAbsolute wd file ≠ none := by
  intro hnone
  rw [getEdit_of_none hnone] at h
  cases h

/-- The world of a client that has its file for itself is mirrored by a site. -/
theorem exists_mirror (hdisk : ∀ tree, Permissive (setting.disk tree) tree)
    {events : List WorldEvent} {index : ℕ} {client : Client}
    (h : (runWorld setting tree events).clients[index]? = some client)
    (hsavable : Savable setting.wd tree client.file)
    (halone : Alone setting.wd index (location setting.wd client.file)
      (runWorld setting tree events)) :
    ∃ (window : Window) (opened : Opened) (content : JsString) (disk : Disk)
        (after : List WorldEvent),
      after <:+ events ∧ opened.file = client.file ∧
        Mirrors setting index window opened (runWorld setting tree events)
          (runSite window opened content disk (after.filterMap (ownEvent index))) := by
  obtain ⟨before, file, window, after, base, shown, contents, rfl, hpage, hopened⟩ :=
    exists_visit setting tree h
  obtain ⟨target, htarget⟩ := Option.ne_none_iff_exists'.mp (accepted_of_shown hpage)
  have hrun : runWorld setting tree (before ++ .visit file window :: after) =
      after.foldl (worldStep setting)
        (worldStep setting (runWorld setting tree before) (.visit file window)) := by
    rw [runWorld, List.foldl_append]
    rfl
  have hfile : client.file = file := by
    rw [hrun] at h
    rw [← Option.some.inj ((client_foldl hopened after).symm.trans h), (same_foldl _ _).1]
    rfl
  rw [hfile] at hsavable halone
  rw [hrun] at halone ⊢
  let opened : Opened := ⟨setting.wd, file, target, htarget⟩
  let content := setting.received contents
  let disk : Disk := fun _ ↦
    contentAt (runWorld setting tree before).tree (location setting.wd file)
  have hstart : Mirrors setting index window opened
      (worldStep setting (runWorld setting tree before) (.visit file window))
      ⟨loaded window content, disk⟩ := by
    refine ⟨rfl, ⟨_, hopened, rfl, rfl, rfl⟩, ?_⟩
    simp only [worldStep, hpage]
    rfl
  have hstartSavable :=
    savable_worldStep setting (savable_runWorld setting hsavable before) (.visit file window)
  refine ⟨window, opened, content, disk, after, ?_, hfile.symm, ?_⟩
  · exact ⟨before ++ [.visit file window], by simp⟩
  · exact hstart.foldl hdisk hstartSavable after halone

theorem takesOldest_of_own {events : List WorldEvent} {index : ℕ}
    (h : ∀ position, .deliver index position ∈ events → position = 0) :
    ∀ event ∈ events.filterMap (ownEvent index), event.TakesOldest := by
  intro event hevent
  obtain ⟨given, hgiven, howned⟩ := List.mem_filterMap.mp hevent
  cases given with
  | visit file window => cases howned
  | page i pageEvent =>
      simp only [ownEvent] at howned
      split_ifs at howned
      obtain rfl := Option.some.inj howned
      trivial
  | deliver i position =>
      simp only [ownEvent] at howned
      split_ifs at howned with hi
      obtain rfl := Option.some.inj howned
      subst hi
      exact h position hgiven

end Rest

end CoffeeTable.Session
