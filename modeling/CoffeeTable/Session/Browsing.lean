import CoffeeTable.Browser.ExecBox
import CoffeeTable.Session.Saving

/-!
# Saving from the whole page

The page of one client with its timers, the network and the disk. However the
user types, confirms texts, moves the focus and makes handlers throw: the last
state handed to `save` has the text of the page, the last text posted is that
of the last state once the timer is off, and the file holds the text that was
taken last. From every state the page comes to rest by itself, one wait after
the last key.
-/

namespace CoffeeTable.Session

open Browser Ecma Editor Keyboard Server Transition Underscore Page

/-! ## The saver of the page -/

/-- What an event of the page is to the debounced `save`. -/
def saverEvent (page : Page) : Browser.Event → Option (Debounced.Event State)
  | .key e =>
      match page.focus, delivered e with
      | some .editor, some (.ok key) => (savedBy page.state key).map .call
      | _, _ => none
  | .elapse ms => some (.elapse ms)
  | .other delay => some (.other delay)
  | .expire index => some (.expire index)
  | _ => none

abbrev Saver := Debounced State (Channel JsString)

def saverStep (saver : Saver) (event : Debounced.Event State) : Saver :=
  saver.step post saveWait false event

section Saver

variable {window : Window} {page : Page}

theorem saver_editorKey (hready : page.Ready) (key : Key) :
    (Script.result (editorKey window key) page).2.saver =
      ((savedBy page.state key).map Debounced.Event.call).toList.foldl saverStep page.saver := by
  rw [result_editorKey window hready, savedBy]
  cases press page.state key with
  | none => rfl
  | some outcome =>
      cases outcome with
      | error fault => rfl
      | ok state =>
          have hhandled : (page.handled window key state).saver =
              saverStep page.saver (.call state) :=
            congrArg (fun saver : Saver ↦ saver.call post saveWait false state)
              (saver_boxed (page.pressed key) key)
          by_cases hcursor : HasCursor state
          · simp only [if_pos hcursor]
            exact hhandled
          · simp only [if_neg hcursor]
            exact hhandled

theorem saver_execKey (hready : page.Ready) (key : Key) :
    (Script.result (execKey window key) page).2.saver = page.saver := by
  rw [result_execKey window hready]
  split_ifs
  · cases execute page.execVal page.state with
    | error fault => rfl
    | ok state =>
        by_cases hcursor : HasCursor state
        · simp only [if_pos hcursor]
          rfl
        · simp only [if_neg hcursor]
          rfl
  · rfl
  · rfl

theorem saver_step (window : Window) (hready : page.Ready) (event : Browser.Event) :
    (Browser.step window page event).saver =
      (saverEvent page event).toList.foldl saverStep page.saver := by
  cases event with
  | key e =>
      have hstep : Browser.step window page (.key e) =
          (Script.result (keyEvent window e) page).2 := rfl
      rw [hstep, result_keyEvent, saverEvent]
      cases page.focus with
      | none => rfl
      | some node =>
          cases delivered e with
          | none => cases node <;> rfl
          | some outcome =>
              cases outcome with
              | error message => cases node <;> rfl
              | ok key =>
                  cases node with
                  | editor => exact saver_editorKey hready key
                  | exec =>
                      simp only [snd_resume_pure]
                      exact saver_execKey hready key
  | focus node =>
      cases node with
      | none => rfl
      | some node =>
          have hstep : Browser.step window page (.focus (some node)) =
              if node = .exec ∧ page.execShown = false then page
              else { page with focus := some node } := rfl
          rw [hstep]
          split_ifs <;> rfl
  | input text =>
      have hstep : Browser.step window page (.input text) =
          if page.focus = some .exec then { page with execVal := text } else page := rfl
      rw [hstep]
      split_ifs <;> rfl
  | scroll position => rfl
  | elapse ms => rfl
  | other delay => rfl
  | expire index => rfl

end Saver

/-! ## The system -/

structure Site where
  page : Page
  disk : Disk

inductive SiteEvent where
  | page (event : Browser.Event)
  | deliver (index : ℕ)

def siteStep (window : Window) (opened : Opened) (site : Site) : SiteEvent → Site
  | .page event => { site with page := Browser.step window site.page event }
  | .deliver index =>
      match site.page.saver.target.take? index with
      | none => site
      | some (content, network) =>
          { page := { site.page with saver := { site.page.saver with target := network } }
            disk := takePost opened site.disk content }

def runSite (window : Window) (opened : Opened) (content : JsString) (disk : Disk)
    (events : List SiteEvent) : Site :=
  events.foldl (siteStep window opened) ⟨loaded window content, disk⟩

def Site.network (site : Site) : Channel JsString := site.page.saver.target

/-- A state was saved, the timer is off, and no posted text is in flight. -/
structure Site.Quiet (site : Site) : Prop where
  calls_ne_nil : calls site.page.saver.log ≠ []
  timeout_eq : site.page.saver.timeout = none
  inFlight_eq : site.network.inFlight = []

/-- The file holds the text of the page. -/
def Site.Current (opened : Opened) (site : Site) : Prop :=
  site.disk opened.target = some site.page.state.text

def SiteEvent.TakesOldest : SiteEvent → Prop
  | .page _ => True
  | .deliver index => index = 0

/-- The saver trails the page and the file trails the network. -/
structure Followed (window : Window) (opened : Opened) (site : Site) : Prop where
  sound : Sound window site.page
  trailing : site.page.saver.Trailing saveWait
  text_of_called : ∀ state, (calls site.page.saver.log).getLast? = some state →
    state.text = site.page.state.text
  sent_eq : site.network.sent = (invocations site.page.saver.log).map State.text
  disk_of_taken : ∀ n, site.network.taken = some n → site.disk opened.target = site.network.sent[n]?

/-! ## One event -/

section Step

variable {window : Window} {opened : Opened} {site : Site}

/-- The state saved last has the text of the state variable. -/
def LastSaved (editing : Editing) : Prop :=
  ∀ state, editing.saves.getLast? = some state → state.text = editing.state.text

theorem LastSaved.next {editing : Editing} (h : LastSaved editing) (act : Act) :
    LastSaved (editing.next act) := by
  cases act with
  | key key =>
      obtain ⟨hsaved, hkept⟩ := handleKey_of_savedBy (s := editing.state) (k := key)
      intro state hstate
      cases hsave : savedBy editing.state key with
      | some t =>
          simp only [Editing.next, hsave, hsaved t hsave, Option.toList_some,
            List.getLast?_concat, Option.some.injEq] at hstate ⊢
          rw [hstate]
      | none =>
          simp only [Editing.next, hsave, Option.toList_none, List.append_nil] at hstate ⊢
          rw [hkept hsave]
          exact h state hstate
  | confirm expr =>
      intro state hstate
      have htext : (confirm editing.state expr).text = editing.state.text := by
        rw [State.text, buffer_confirm, State.text]
      exact (h state hstate).trans htext.symm

theorem LastSaved.foldl {editing : Editing} (h : LastSaved editing) (acts : List Act) :
    LastSaved (acts.foldl Editing.next editing) := by
  induction acts generalizing editing with
  | nil => exact h
  | cons act acts ih => exact ih (h.next act)

theorem trailing_foldl {saver : Saver} (h : saver.Trailing saveWait)
    (events : List (Debounced.Event State)) : (events.foldl saverStep saver).Trailing saveWait := by
  induction events generalizing saver with
  | nil => exact h
  | cons event events ih => exact ih (h.step event)

/-- What an event of the page adds to the network. -/
theorem exists_posted (window : Window) {page : Page} (hready : page.Ready)
    (event : Browser.Event) :
    ∃ posted : List State,
      invocations (Browser.step window page event).saver.log =
        invocations page.saver.log ++ posted ∧
      (Browser.step window page event).saver.target = posted.foldl post page.saver.target := by
  rw [saver_step window hready]
  cases saverEvent page event with
  | none => exact ⟨[], (List.append_nil _).symm, rfl⟩
  | some saverEvent =>
      obtain ⟨-, args, hinvoked, htarget⟩ :=
        Debounced.step_adds post saveWait page.saver saverEvent
      exact ⟨args.toList, hinvoked, htarget⟩

theorem foldl_post (network : Channel JsString) (posted : List State) :
    (posted.foldl post network).sent = network.sent ++ posted.map State.text ∧
      (posted.foldl post network).taken = network.taken := by
  induction posted generalizing network with
  | nil => simp
  | cons state posted ih =>
      obtain ⟨hsent, htaken⟩ := ih (post network state)
      rw [List.foldl_cons, hsent, htaken, post, Channel.sent_send]
      simp [Channel.send]

theorem Followed.page (h : Followed window opened site) (event : Browser.Event) :
    Followed window opened (siteStep window opened site (.page event)) := by
  obtain ⟨hsound, htrailing, htext, hsent, hdisk⟩ := h
  obtain ⟨posted, hinvoked, htarget⟩ := exists_posted window hsound.ready event
  obtain ⟨hsent', htaken'⟩ := foldl_post site.page.saver.target posted
  refine ⟨hsound.step event, ?_, ?_, ?_, fun n hn ↦ ?_⟩
  · have hsaver := saver_step window hsound.ready event
    show (Browser.step window site.page event).saver.Trailing saveWait
    rw [hsaver]
    exact trailing_foldl htrailing _
  · have hstart : LastSaved (editingOf site.page) := htext
    have hlast := hstart.foldl (actOf site.page event).toList
    rw [← editingOf_step window hsound.ready event] at hlast
    exact hlast
  · show (Browser.step window site.page event).saver.target.sent = _
    rw [htarget, hsent']
    show site.network.sent ++ _ = _
    rw [hsent, ← List.map_append, ← hinvoked]
    rfl
  · show site.disk opened.target = (Browser.step window site.page event).saver.target.sent[n]?
    have hn' : site.network.taken = some n := by
      rw [← hn]
      show _ = (Browser.step window site.page event).saver.target.taken
      rw [htarget, htaken']
      rfl
    have hlt : n < site.network.sent.length := site.network.taken_lt n hn'
    rw [htarget, hsent']
    exact (hdisk n hn').trans (List.getElem?_append_left hlt).symm

theorem Followed.deliver (h : Followed window opened site) (index : ℕ) :
    Followed window opened (siteStep window opened site (.deliver index)) := by
  obtain ⟨hsound, htrailing, htext, hsent, hdisk⟩ := h
  cases htake : site.page.saver.target.take? index with
  | none =>
      simp only [siteStep, htake]
      exact ⟨hsound, htrailing, htext, hsent, hdisk⟩
  | some message =>
      obtain ⟨content, network⟩ := message
      obtain ⟨hsame, -, n, -, htaken, hcontent⟩ := Channel.take?_eq_some htake
      simp only [siteStep, htake]
      refine ⟨hsound.saver _, ?_, htext, hsame.trans hsent, fun m hm ↦ ?_⟩
      · exact ⟨htrailing.owns, htrailing.armed, htrailing.awaited, htrailing.le_now,
          htrailing.follows, htrailing.paced, htrailing.paced_call⟩
      · obtain rfl := Option.some.inj (htaken.symm.trans hm)
        show takePost opened site.disk content opened.target = network.sent[n]?
        rw [takePost_target, hsame, hcontent]

theorem Followed.step (h : Followed window opened site) (event : SiteEvent) :
    Followed window opened (siteStep window opened site event) := by
  cases event with
  | page event => exact h.page event
  | deliver index => exact h.deliver index

/-! ## Rest -/

/-- The site after a run at rest: the file holds the text that was taken last,
and the text that was posted last is that of the page. -/
theorem Followed.rest {site : Site} (h : Followed window opened site) (hquiet : site.Quiet) :
    ∃ n, site.network.taken = some n ∧ site.disk opened.target = site.network.sent[n]? ∧
      site.network.sent.getLast? = some site.page.state.text := by
  obtain ⟨state, hcalled, hinvoked⟩ :=
    h.trailing.getLast?_of_off hquiet.timeout_eq hquiet.calls_ne_nil
  have hlast : site.network.sent.getLast? = some site.page.state.text := by
    rw [h.sent_eq, List.getLast?_map, hinvoked, Option.map_some, h.text_of_called state hcalled]
  have hne : site.network.sent ≠ [] := by
    intro hnil
    rw [hnil] at hlast
    cases hlast
  obtain ⟨n, hn⟩ := Channel.exists_taken hquiet.inFlight_eq hne
  exact ⟨n, hn, h.disk_of_taken n hn, hlast⟩

/-- At rest and taken in order, the newest text is on the disk. -/
theorem Followed.current {site : Site} (h : Followed window opened site) (hquiet : site.Quiet)
    (horder : site.network.InOrder) : site.Current opened := by
  obtain ⟨n, hn, hfile, hlast⟩ := h.rest hquiet
  have hnewest : n + 1 = site.network.sent.length := horder.taken_succ hquiet.inFlight_eq hn
  rw [Site.Current, hfile, ← hlast, List.getLast?_eq_getElem?, ← hnewest, Nat.add_sub_cancel]

theorem inOrder_foldl_post {network : Channel JsString} (h : network.InOrder)
    (posted : List State) : (posted.foldl post network).InOrder := by
  induction posted generalizing network with
  | nil => exact h
  | cons state posted ih => exact ih (h.send state.text)

theorem inOrder_siteStep {site : Site} (h : Followed window opened site ∧ site.network.InOrder)
    {event : SiteEvent} (hevent : event.TakesOldest) :
    (siteStep window opened site event).network.InOrder := by
  obtain ⟨hfollowed, horder⟩ := h
  cases event with
  | page event =>
      obtain ⟨posted, -, htarget⟩ := exists_posted window hfollowed.sound.ready event
      show (Browser.step window site.page event).saver.target.InOrder
      rw [htarget]
      exact inOrder_foldl_post horder posted
  | deliver index =>
      obtain rfl : index = 0 := hevent
      cases htake : site.page.saver.target.take? 0 with
      | none => simpa only [siteStep, htake] using horder
      | some message =>
          simp only [siteStep, htake]
          exact horder.take htake

end Step

/-! ## Runs -/

/-- Two keys, the wait, and the post. -/
def oneBurst : List SiteEvent :=
  [.page (.key (character 'i')), .page (.key (character 'x')), .page (.elapse 1000),
    .page (.expire 0), .deliver 0]

section Runs

variable (window : Window) (opened : Opened) (content : JsString) (disk : Disk)

theorem followed_loaded : Followed window opened ⟨loaded window content, disk⟩ where
  sound := sound_loaded window content
  trailing := Debounced.trailing_fresh Channel.empty
  text_of_called := by
    intro state hstate
    cases hstate
  sent_eq := rfl
  disk_of_taken := by
    intro n hn
    cases hn

theorem followed_runSite (events : List SiteEvent) :
    Followed window opened (runSite window opened content disk events) := by
  have hrun : Throughout (siteStep window opened) (Followed window opened)
      ⟨loaded window content, disk⟩ events :=
    throughout_of_step (fun _ event h ↦ h.step event)
      (followed_loaded window opened content disk) events
  exact hrun.last

theorem inOrder_runSite {events : List SiteEvent} (hevents : ∀ event ∈ events, event.TakesOldest) :
    (runSite window opened content disk events).network.InOrder := by
  have hrun : Throughout (siteStep window opened)
      (fun site ↦ Followed window opened site ∧ site.network.InOrder)
      ⟨loaded window content, disk⟩ events :=
    throughout_of_along
      (fun _ event h hevent ↦ ⟨h.1.step event, inOrder_siteStep h hevent⟩)
      ⟨followed_loaded window opened content disk, Channel.inOrder_empty⟩
      (along_of_forall_mem hevents _)
  exact hrun.last.2

/-- The texts posted are texts of states that were saved, in the order of
saving, and there is at most one in each wait. -/
theorem posts_are_sparse (events : List SiteEvent) :
    let site := runSite window opened content disk events
    (∃ posted : List State, posted.Sublist (calls site.page.saver.log) ∧
      site.network.sent = posted.map State.text) ∧
    saveWait * site.network.sent.length ≤ site.page.saver.timers.now := by
  intro site
  have hfollowed : Followed window opened site := followed_runSite window opened content disk events
  refine ⟨⟨_, hfollowed.trailing.follows.sublist, hfollowed.sent_eq⟩, ?_⟩
  rw [hfollowed.sent_eq, List.length_map]
  exact hfollowed.trailing.paced

/-! ## Coming to rest -/

/-- Time passes, timers expire, and the network delivers. -/
def SiteEvent.Idle : SiteEvent → Prop
  | .page (.elapse _) => True
  | .page (.expire _) => True
  | .deliver index => index = 0
  | _ => False

theorem SiteEvent.Idle.takesOldest {event : SiteEvent} (h : event.Idle) : event.TakesOldest := by
  cases event with
  | page event => trivial
  | deliver index => exact h

/-- What the saver and the page are, apart from the network. -/
def Site.SameBut (site site' : Site) : Prop :=
  editingOf site'.page = editingOf site.page ∧ site'.page.saver.timeout = site.page.saver.timeout

/-- All texts in flight can be delivered. -/
theorem exists_delivered (site : Site) :
    ∃ k, let rest := (List.replicate k (SiteEvent.deliver 0)).foldl (siteStep window opened) site
      rest.network.inFlight = [] ∧ site.SameBut rest := by
  induction hlength : site.network.inFlight.length generalizing site with
  | zero => exact ⟨0, List.length_eq_zero_iff.mp hlength, rfl, rfl⟩
  | succ length ih =>
      cases htake : site.network.take? 0 with
      | none =>
          have hpos : 0 < site.network.inFlight.length := by omega
          simp [Channel.take?, hpos] at htake
      | some message =>
          obtain ⟨content, network⟩ := message
          have hflight : network.inFlight = site.network.inFlight.eraseIdx 0 :=
            (Channel.take?_eq_some htake).2.1
          have hstep : siteStep window opened site (.deliver 0) =
              { page := { site.page with saver := { site.page.saver with target := network } }
                disk := takePost opened site.disk content } := by
            have htake' : site.page.saver.target.take? 0 = some (content, network) := htake
            simp only [siteStep, htake']
          obtain ⟨k, hk, hsame⟩ := ih (siteStep window opened site (.deliver 0)) (by
            rw [hstep]
            show network.inFlight.length = length
            rw [hflight, List.length_eraseIdx_of_lt (by omega), hlength]
            rfl)
          refine ⟨k + 1, ?_, ?_⟩
          · rw [List.replicate_succ, List.foldl_cons]
            exact hk
          · rw [List.replicate_succ, List.foldl_cons]
            rw [hstep] at hsame ⊢
            exact hsame

/-- After one wait the timer is off. -/
theorem exists_fired {site : Site} (h : Followed window opened site) :
    ∃ events : List SiteEvent, (∀ event ∈ events, event.Idle) ∧
      let rest := events.foldl (siteStep window opened) site
      editingOf rest.page = editingOf site.page ∧ rest.page.saver.timeout = none := by
  by_cases hoff : site.page.saver.timeout = none
  · exact ⟨[], by simp, rfl, hoff⟩
  · have hon : site.page.saver.timeout.isSome := Option.isSome_iff_ne_none.mpr hoff
    obtain ⟨since, state, hlast⟩ := h.trailing.timeout_isSome_iff.mp hon
    have hfires : ∃ index, ([.elapse saveWait, .expire index].foldl saverStep
        site.page.saver).log =
          site.page.saver.log ++ [.invoked (site.page.saver.timers.now + saveWait) state] :=
      h.trailing.exists_expire hlast
    obtain ⟨index, hlog⟩ := hfires
    refine ⟨[.page (.elapse saveWait), .page (.expire index)], by simp [SiteEvent.Idle], ?_, ?_⟩
    · have helapsed := h.page (.elapse saveWait)
      exact editingOf_step window helapsed.sound.ready (.expire index)
    · have hrest := (h.page (.elapse saveWait)).page (.expire index)
      by_contra hsome
      obtain ⟨since', state', hlast'⟩ :=
        hrest.trailing.timeout_isSome_iff.mp (Option.isSome_iff_ne_none.mpr hsome)
      have hend : ([.elapse saveWait, .expire index].foldl saverStep
          site.page.saver).log.getLast? = some (.called since' state') := hlast'
      rw [hlog, List.getLast?_concat] at hend
      cases hend

end Runs

end CoffeeTable.Session
