import PrivatePayments.Bootnode.Service

/-! When a handoff loses nothing: the cached pages form one chain of cursors from the first
request to the saved cursor, and a client that runs out of pages stands at its end. -/
namespace PrivatePayments.Bootnode
open List Relation
open Sdk (ContractEvent Feed Page EventStart)

variable {cfg : Config} {s s' : Storage} {start : EventStart} {cursor : String}

namespace Storage

def Leads (s : Storage) (cursor next : String) : Prop :=
  ∃ page, s.cacheByCursorIn cursor = some page ∧ page.cursor = next

def Reaches (cfg : Config) (s : Storage) (cursor : String) : Prop :=
  ∃ page, s.cacheByStartLedger cfg.minDeploymentLedger = some page ∧
    ReflTransGen s.Leads page.cursor cursor

def Grows (s s' : Storage) : Prop := ∀ start page, s.getCached start = some page → s'.getCached start = some page

variable {page : Page}

theorem leads_unique : Relator.RightUnique s.Leads := by
  rintro cursor _ _ ⟨page, hpage, rfl⟩ ⟨page', hpage', rfl⟩
  cases hpage.symm.trans hpage'
  rfl

theorem Reaches.mono (h : s.Reaches cfg cursor) (hgrows : s.Grows s') : s'.Reaches cfg cursor := by
  obtain ⟨first, hfirst, hpath⟩ := h
  refine ⟨first, hgrows (.ledger _) first hfirst, ReflTransGen.mono ?_ _ _ hpath⟩
  rintro cursor _ ⟨page, hpage, rfl⟩
  exact ⟨page, hgrows (.cursor cursor) page hpage, rfl⟩

theorem Reaches.next (h : s.Reaches cfg cursor) (hpage : s.cacheByCursorIn cursor = some page) :
    s.Reaches cfg page.cursor := by
  obtain ⟨first, hfirst, hpath⟩ := h
  exact ⟨first, hfirst, hpath.tail ⟨page, hpage, rfl⟩⟩

theorem Reaches.first (hpage : s.cacheByStartLedger cfg.minDeploymentLedger = some page) :
    s.Reaches cfg page.cursor :=
  ⟨page, hpage, .refl⟩

theorem cache_getCached (start' : EventStart) :
    (s.cache start page).getCached start' = if start' = start then some page else s.getCached start' := by
  cases start <;> cases start' <;> simp [cache, getCached, Function.update_apply]

theorem setCursorLedger_getCached : (s.setCursorLedger page).getCached start = s.getCached start := by
  unfold setCursorLedger
  split <;> cases start <;> rfl

theorem cache_grows (hmissing : s.getCached start = none) : s.Grows (s.cache start page) := by
  intro start' old hold
  rw [cache_getCached]
  split
  · rename_i hstart
    rw [hstart, hmissing] at hold
    cases hold
  · exact hold

theorem insert_eq (hpage : page.events ≠ []) :
    (∃ old, s.getCached start = some old ∧ s.insertGetEventsPage start page = s) ∨
      s.getCached start = none ∧ s.insertGetEventsPage start page = (s.cache start page).setCursorLedger page := by
  unfold insertGetEventsPage
  rw [if_neg (by simpa using hpage)]
  cases hcached : s.getCached start with
  | some old => exact .inl ⟨old, rfl, rfl⟩
  | none => exact .inr ⟨rfl, rfl⟩

end Storage

section
variable (feed : Feed) (cfg : Config)

/-- The events of the contracts before the place, from the first deployment on. -/
def Holds (n : Nat) (received : List ContractEvent) : Prop :=
  ∀ event ∈ feed.log.take n, event.contractId ∈ cfg.contractIds → cfg.minDeploymentLedger ≤ event.ledger →
    event ∈ received

structure Chained (s : Storage) : Prop where
  pages : ∀ start page, s.getCached start = some page →
    feed.Answers cfg.contractIds start page ∧ page.events ≠ []
  ledgers : ∀ cursor ledger, s.ledgerByCursorOut cursor = some ledger →
    ∃ event ∈ feed.log.take (feed.place cursor), event.ledger = ledger
  saved : ∀ cursor, s.lastCursor = some cursor → s.Reaches cfg cursor
  full : ∀ event ∈ feed.log, event.contractId ∈ cfg.contractIds → event.ledger ≤ s.lastFullyIndexedLedger →
    ∃ cursor, s.lastCursor = some cursor ∧ event ∈ feed.log.take (feed.place cursor)

def Follows (s : Storage) : Round → Prop
  | .idle | .tip _ | .loading | .indexed => True
  | .request start _ => start = Sdk.Indexer.eventStart cfg.minDeploymentLedger s.lastCursor
  | .fetched start _ answer =>
    start = Sdk.Indexer.eventStart cfg.minDeploymentLedger s.lastCursor ∧
      feed.Answers cfg.contractIds start answer
  | .insert start _ answer =>
    start = Sdk.Indexer.eventStart cfg.minDeploymentLedger s.lastCursor ∧
      feed.Answers cfg.contractIds start answer ∧ answer.events ≠ []
  | .advance _ answer =>
    s.Reaches cfg answer.cursor ∧
      ∀ cursor, s.lastCursor = some cursor → feed.place cursor ≤ feed.place answer.cursor
  | .caughtUp answer =>
    ∃ cursor, s.lastCursor = some cursor ∧ ∀ event ∈ feed.log, event.contractId ∈ cfg.contractIds →
      event.ledger ≤ answer.latestLedger → event ∈ feed.log.take (feed.place cursor)

def Stands (s : Storage) (received : List ContractEvent) : EventStart → Prop
  | .ledger startLedger => startLedger = cfg.minDeploymentLedger
  | .cursor cursor => s.Reaches cfg cursor ∧ Holds feed cfg (feed.place cursor) received

def Answering (s : Storage) (client : Client) : Serving → Prop
  | .lookup cursor _ => client.next = .cursor cursor
  | .reading start _ | .missed start _ => client.next = start
  | .answered (.ok page) => s.getCached client.next = some page
  | .answered (.error (.retentionHandoff fromLedger)) => Delivered feed cfg fromLedger client.received
  | .answered (.error _) => True

structure Following (s : Storage) (client : Client) : Prop where
  next : Stands feed cfg s client.received client.next
  serving : ∀ serving, client.serving = some serving → Answering feed cfg s client serving
  handedOff : ∀ fromLedger, client.fromLedger = some fromLedger →
    Delivered feed cfg fromLedger client.received

structure Inv (x : State) : Prop where
  chained : Chained feed cfg x.storage
  round : Follows feed cfg x.storage x.round
  client : Following feed cfg x.storage x.client

end

/-- What a state must meet so that no event is lost.  An empty page repeats the cursor it was asked
for; a page that is fetched again ends where the cached one ends; and when a missing page leads to a
handoff, it is still missing and the indexer has been in sync up to the handoff. -/
structure Careful (cfg : Config) (x : State) : Prop where
  empty : ∀ start pages answer, x.round = .fetched start pages answer → answer.events = [] →
    start = .cursor answer.cursor
  again : ∀ start pages answer page, x.round = .insert start pages answer →
    x.storage.getCached start = some page → page.cursor = answer.cursor
  missing : ∀ start tip, x.client.serving = some (.missed start tip) → x.storage.inSync = true →
    x.storage.getCached start = none ∧ cfg.cutoffLedger tip ≤ x.storage.lastFullyIndexedLedger + 1

section
variable {feed : Feed} {answer page : Page} {client : Client} {event : ContractEvent} {x y : State}

theorem startPlace_lt (h : feed.Answers cfg.contractIds start answer) (hne : answer.events ≠ []) :
    feed.startPlace start < feed.place answer.cursor := by
  by_contra hle
  have hdrop : (feed.log.take (feed.place answer.cursor)).drop (feed.startPlace start) = [] :=
    drop_eq_nil_of_le ((length_take_le _ _).trans (by omega))
  have hevents := h.events
  rw [hdrop, filter_nil] at hevents
  exact hne hevents

theorem mem_take_mono {n m : Nat} (hle : n ≤ m) (h : event ∈ feed.log.take n) : event ∈ feed.log.take m :=
  (take_subset_take_left feed.log hle) h

theorem Chained.place_le (h : Chained feed cfg s) {next : String}
    (hpath : ReflTransGen s.Leads cursor next) : feed.place cursor ≤ feed.place next := by
  induction hpath with
  | refl => exact le_rfl
  | tail _ hlead ih =>
    obtain ⟨page, hpage, rfl⟩ := hlead
    obtain ⟨hanswers, hne⟩ := h.pages (.cursor _) page hpage
    exact ih.trans (startPlace_lt hanswers hne).le

theorem Chained.saved_le (h : Chained feed cfg s) {saved : String} (hsaved : s.lastCursor = some saved)
    (hreaches : s.Reaches cfg cursor) (hmissing : s.cacheByCursorIn cursor = none) :
    feed.place saved ≤ feed.place cursor := by
  obtain ⟨first, hfirst, hpath⟩ := hreaches
  obtain ⟨first', hfirst', hpath'⟩ := h.saved saved hsaved
  cases hfirst.symm.trans hfirst'
  rcases ReflTransGen.total_of_right_unique Storage.leads_unique hpath' hpath with hsteps | hsteps
  · exact h.place_le hsteps
  · rcases hsteps.cases_head with rfl | ⟨next, ⟨page, hpage, -⟩, -⟩
    · exact le_rfl
    · rw [hmissing] at hpage
      cases hpage

theorem getCached_congr (hcursor : s'.cacheByCursorIn = s.cacheByCursorIn)
    (hstart : s'.cacheByStartLedger = s.cacheByStartLedger) : s'.getCached = s.getCached := by
  funext start
  cases start <;> simp [Storage.getCached, hcursor, hstart]

theorem Chained.pages_of_congr (h : Chained feed cfg s) (hcursor : s'.cacheByCursorIn = s.cacheByCursorIn)
    (hstart : s'.cacheByStartLedger = s.cacheByStartLedger) (start : EventStart) (page : Page)
    (hpage : s'.getCached start = some page) : feed.Answers cfg.contractIds start page ∧ page.events ≠ [] :=
  h.pages start page (by rwa [getCached_congr hcursor hstart] at hpage)

theorem chained_fresh : Chained feed cfg .fresh where
  pages start page h := by cases start <;> cases h
  ledgers := nofun
  saved := nofun
  full event hevent _ hle := absurd (feed.positive event hevent) (by simpa [Storage.fresh] using hle)

theorem Chained.updateCursor (h : Chained feed cfg s) (hreaches : s.Reaches cfg cursor)
    (hle : ∀ saved, s.lastCursor = some saved → feed.place saved ≤ feed.place cursor) :
    Chained feed cfg (s.updateCursor cursor) where
  pages := h.pages_of_congr rfl rfl
  ledgers := h.ledgers
  saved := by
    rintro _ ⟨⟩
    exact hreaches
  full event hevent hid hledger := by
    obtain ⟨saved, hsaved, hmem⟩ := h.full event hevent hid hledger
    exact ⟨cursor, rfl, mem_take_mono (hle saved hsaved) hmem⟩

theorem last_mem (h : feed.Answers cfg.contractIds start answer) {last : ContractEvent}
    (hlast : answer.events.getLast? = some last) : last ∈ feed.log.take (feed.place answer.cursor) := by
  have hmem := mem_of_getLast? hlast
  rw [h.events, mem_filter] at hmem
  exact mem_of_mem_drop hmem.1

theorem Chained.setCursorLedger (h : Chained feed cfg s) (hanswers : feed.Answers cfg.contractIds start answer) :
    Chained feed cfg (s.setCursorLedger answer) := by
  unfold Storage.setCursorLedger
  split
  · rename_i last hlast
    refine ⟨h.pages_of_congr rfl rfl, ?_, h.saved, h.full⟩
    intro cursor ledger hledger
    simp only [Function.update_apply] at hledger
    split at hledger
    · rename_i hcursor
      rw [hcursor]
      exact ⟨last, last_mem hanswers hlast, Option.some.inj hledger⟩
    · exact h.ledgers cursor ledger hledger
  · exact h

theorem Chained.cache (h : Chained feed cfg s) (hmissing : s.getCached start = none)
    (hanswers : feed.Answers cfg.contractIds start answer) (hne : answer.events ≠ []) :
    Chained feed cfg (s.cache start answer) := by
  have hpages : ∀ start' page, (s.cache start answer).getCached start' = some page →
      feed.Answers cfg.contractIds start' page ∧ page.events ≠ [] := by
    intro start' page hpage
    rw [Storage.cache_getCached] at hpage
    split at hpage
    · rename_i hstart
      cases hpage
      rw [hstart]
      exact ⟨hanswers, hne⟩
    · exact h.pages start' page hpage
  have hsaved : ∀ cursor, s.lastCursor = some cursor → (s.cache start answer).Reaches cfg cursor :=
    fun cursor hcursor => (h.saved cursor hcursor).mono (Storage.cache_grows hmissing)
  cases start with
  | ledger startLedger => exact ⟨hpages, h.ledgers, hsaved, h.full⟩
  | cursor cursor => exact ⟨hpages, h.ledgers, hsaved, h.full⟩

theorem Chained.reaches_next (h : Chained feed cfg s)
    (hpage : s.getCached (Sdk.Indexer.eventStart cfg.minDeploymentLedger s.lastCursor) = some page) :
    s.Reaches cfg page.cursor := by
  cases hcursor : s.lastCursor with
  | none =>
    rw [hcursor] at hpage
    exact .first hpage
  | some cursor =>
    rw [hcursor] at hpage
    exact (h.saved cursor hcursor).next hpage

theorem lastCursor_stored : ((s.cache start answer).setCursorLedger answer).lastCursor = s.lastCursor := by
  unfold Storage.setCursorLedger
  split <;> cases start <;> rfl

theorem place_le_answer (hstart : start = Sdk.Indexer.eventStart cfg.minDeploymentLedger s.lastCursor)
    (hanswers : feed.Answers cfg.contractIds start answer) (hne : answer.events ≠ [])
    (hcursor : s.lastCursor = some cursor) : feed.place cursor ≤ feed.place answer.cursor := by
  rw [hcursor] at hstart
  rw [hstart] at hanswers
  exact (startPlace_lt hanswers hne).le

theorem Chained.insert (h : Chained feed cfg s)
    (hstart : start = Sdk.Indexer.eventStart cfg.minDeploymentLedger s.lastCursor)
    (hanswers : feed.Answers cfg.contractIds start answer) (hne : answer.events ≠ [])
    (hagain : ∀ page, s.getCached start = some page → page.cursor = answer.cursor) (pages : Nat) :
    Chained feed cfg (s.insertGetEventsPage start answer) ∧
      Follows feed cfg (s.insertGetEventsPage start answer) (.advance pages answer) ∧
      s.Grows (s.insertGetEventsPage start answer) := by
  rcases @Storage.insert_eq s start answer hne with ⟨old, hold, heq⟩ | ⟨hmissing, heq⟩
  · rw [heq]
    have hreaches : s.Reaches cfg old.cursor := h.reaches_next (hstart ▸ hold)
    rw [hagain old hold] at hreaches
    exact ⟨h, ⟨hreaches, fun cursor => place_le_answer hstart hanswers hne⟩, fun _ _ => id⟩
  · rw [heq]
    have hchained := (h.cache hmissing hanswers hne).setCursorLedger hanswers
    have hcached : ((s.cache start answer).setCursorLedger answer).getCached start = some answer := by
      rw [Storage.setCursorLedger_getCached, Storage.cache_getCached, if_pos rfl]
    refine ⟨hchained, ⟨?_, ?_⟩, ?_⟩
    · apply hchained.reaches_next
      rwa [lastCursor_stored, ← hstart]
    · intro cursor hcursor
      rw [lastCursor_stored] at hcursor
      exact place_le_answer hstart hanswers hne hcursor
    · intro start' page hpage
      rw [Storage.setCursorLedger_getCached]
      exact Storage.cache_grows hmissing start' page hpage

theorem follows_paging {pages : Nat} (hstart : start = Sdk.Indexer.eventStart cfg.minDeploymentLedger s.lastCursor) :
    Follows feed cfg s (.paging start pages) := by
  cases pages with
  | zero => trivial
  | succ pages => exact hstart

theorem caughtUp_of_empty (hanswers : feed.Answers cfg.contractIds (.cursor cursor) answer)
    (hempty : answer.events = []) (hevent : event ∈ feed.log) (hid : event.contractId ∈ cfg.contractIds)
    (hle : event.ledger ≤ answer.latestLedger) : event ∈ feed.log.take (feed.place cursor) := by
  rw [← take_append_drop (feed.place cursor) feed.log, mem_append] at hevent
  rcases hevent with hbefore | hafter
  · exact hbefore
  · have hlt := hanswers.caughtUp hempty event hafter hid
    omega

theorem grows_of_congr (hcursor : s'.cacheByCursorIn = s.cacheByCursorIn)
    (hstart : s'.cacheByStartLedger = s.cacheByStartLedger) : s.Grows s' := by
  intro start page hpage
  rwa [getCached_congr hcursor hstart]

theorem eventStart_cursor {startLedger : Nat} {saved : Option String}
    (h : .cursor cursor = Sdk.Indexer.eventStart startLedger saved) : saved = some cursor := by
  cases saved with
  | none => cases h
  | some saved =>
    cases h
    rfl

theorem await_keeps (hcareful : Careful cfg x) (h : Chained feed cfg x.storage)
    (hfollows : Follows feed cfg x.storage x.round) :
    Chained feed cfg (x.round.await cfg x.storage).2 ∧
      Follows feed cfg (x.round.await cfg x.storage).2 (x.round.await cfg x.storage).1 ∧
      x.storage.Grows (x.round.await cfg x.storage).2 := by
  cases hround : x.round with
  | idle => exact ⟨h, trivial, fun _ _ => id⟩
  | tip sequence =>
    exact ⟨⟨h.pages_of_congr rfl rfl, h.ledgers, h.saved, h.full⟩, trivial, grows_of_congr rfl rfl⟩
  | loading => exact ⟨h, follows_paging rfl, fun _ _ => id⟩
  | request start pages =>
    rw [hround] at hfollows
    exact ⟨h, hfollows, fun _ _ => id⟩
  | fetched start pages answer =>
    rw [hround] at hfollows
    obtain ⟨hstart, hanswers⟩ := hfollows
    by_cases hempty : answer.events = []
    · -- The cursor stays, so the chain still ends there.
      have hrepeats := hcareful.empty start pages answer hround hempty
      rw [hrepeats] at hstart hanswers
      have hsaved := eventStart_cursor hstart
      simp only [Round.await, hempty, isEmpty_nil, if_true]
      refine ⟨h.updateCursor (h.saved _ hsaved) ?_, ⟨answer.cursor, rfl, ?_⟩, grows_of_congr rfl rfl⟩
      · intro saved hcursor
        cases hsaved.symm.trans hcursor
        exact le_rfl
      · exact fun event => caughtUp_of_empty hanswers hempty
    · have hfalse : answer.events.isEmpty = false := by simpa using hempty
      simp only [Round.await, hfalse, Bool.false_eq_true, if_false]
      exact ⟨⟨h.pages_of_congr rfl rfl, h.ledgers, h.saved, h.full⟩, ⟨hstart, hanswers, hempty⟩, grows_of_congr rfl rfl⟩
  | insert start pages answer =>
    rw [hround] at hfollows
    obtain ⟨hstart, hanswers, hne⟩ := hfollows
    exact h.insert hstart hanswers hne (fun page => hcareful.again start pages answer page hround) pages
  | advance pages answer =>
    rw [hround] at hfollows
    exact ⟨h.updateCursor hfollows.1 hfollows.2, follows_paging rfl, grows_of_congr rfl rfl⟩
  | caughtUp answer =>
    rw [hround] at hfollows
    obtain ⟨cursor, hcursor, hfull⟩ := hfollows
    refine ⟨⟨h.pages_of_congr rfl rfl, h.ledgers, h.saved, ?_⟩, trivial, grows_of_congr rfl rfl⟩
    exact fun event hevent hid hle => ⟨cursor, hcursor, hfull event hevent hid hle⟩
  | indexed =>
    exact ⟨⟨h.pages_of_congr rfl rfl, h.ledgers, h.saved, h.full⟩, trivial, grows_of_congr rfl rfl⟩

theorem Following.mono (h : Following feed cfg s client) (hgrows : s.Grows s') :
    Following feed cfg s' client where
  next := by
    have hnext := h.next
    cases hstart : client.next with
    | ledger startLedger =>
      rw [hstart] at hnext
      exact hnext
    | cursor cursor =>
      rw [hstart] at hnext
      exact ⟨hnext.1.mono hgrows, hnext.2⟩
  serving serving hserving := by
    have hanswering := h.serving serving hserving
    match serving with
    | .lookup .. | .reading .. | .missed .. => exact hanswering
    | .answered (.ok page) => exact hgrows _ page hanswering
    | .answered (.error (.retentionHandoff _)) => exact hanswering
    | .answered (.error (.invalidParams _)) | .answered (.error (.cacheMiss _)) => trivial
  handedOff := h.handedOff

theorem delivered_of_ledger (h : Chained feed cfg s) (hholds : Holds feed cfg (feed.place cursor) client.received)
    {ledger fromLedger : Nat} (hledger : s.ledgerByCursorOut cursor = some ledger) (hle : fromLedger ≤ ledger) :
    Delivered feed cfg fromLedger client.received := by
  obtain ⟨last, hlast, rfl⟩ := h.ledgers cursor ledger hledger
  intro event hevent hid hmin hlt
  exact hholds event (Feed.mem_take_of_ledger_lt hlast hevent (by omega)) hid hmin

variable {fromLedger : Nat}

theorem delivered_of_missing (h : Chained feed cfg s) (hstands : Stands feed cfg s client.received start)
    (hmissing : s.getCached start = none)
    (hle : fromLedger ≤ s.lastFullyIndexedLedger + 1) : Delivered feed cfg fromLedger client.received := by
  intro event hevent hid hmin hlt
  obtain ⟨saved, hsaved, hmem⟩ := h.full event hevent hid (by omega)
  cases start with
  | ledger startLedger =>
    obtain ⟨first, hfirst, -⟩ := h.saved saved hsaved
    rw [← show startLedger = cfg.minDeploymentLedger from hstands] at hfirst
    cases hmissing.symm.trans hfirst
  | cursor cursor =>
    exact hstands.2 event (mem_take_mono (h.saved_le hsaved hstands.1 hmissing) hmem) hid hmin

theorem Following.await (h : Following feed cfg x.storage x.client) (hchained : Chained feed cfg x.storage)
    (hcareful : Careful cfg x) {serving : Serving} (hserving : x.client.serving = some serving) :
    Answering feed cfg x.storage x.client (serving.await cfg x.storage) := by
  have hanswering := h.serving serving hserving
  have hnext := h.next
  match serving with
  | .lookup cursor tip =>
    rw [show x.client.next = .cursor cursor from hanswering] at hnext
    rw [Serving.await]
    cases hledger : x.storage.ledgerByCursorOut cursor with
    | none => exact hanswering
    | some ledger =>
      rw [Serving.afterLookup]
      split
      · rename_i hcutoff
        exact delivered_of_ledger hchained hnext.2 hledger hcutoff.2
      · exact hanswering
  | .reading start tip =>
    rw [Serving.await]
    cases hcached : x.storage.getCached start with
    | some page =>
      rw [← show x.client.next = start from hanswering] at hcached
      exact hcached
    | none =>
      dsimp only
      split
      · rename_i htip
        rw [cacheMissForTip, if_pos htip]
        trivial
      · exact hanswering
  | .missed start tip =>
    rw [Serving.await]
    rw [show x.client.next = start from hanswering] at hnext
    cases hsynced : x.storage.inSync with
    | true =>
      obtain ⟨hmissing, hcutoff⟩ := hcareful.missing start tip hserving hsynced
      exact delivered_of_missing hchained hnext hmissing hcutoff
    | false =>
      rw [if_neg Bool.false_ne_true, cacheMissForTip]
      split <;> trivial
  | .answered result => exact hanswering

theorem isAllowedFilters_forContracts (cfg : Config) (startLedger : Option Nat) (cursor : Option String) (limit : Nat) :
    (GetEventsParams.forContracts cfg.contractIds startLedger cursor limit).isAllowedFilters cfg.contractIds =
      true := by
  simp [GetEventsParams.forContracts, GetEventsParams.isAllowedFilters]

theorem getEvents_request (tip limit : Nat) (start : EventStart) :
    Serving.getEvents cfg tip (Client.request cfg.contractIds limit start) =
      match start with
      | .cursor cursor => .lookup cursor tip
      | .ledger startLedger =>
        if 0 < tip ∧ cfg.cutoffLedger tip ≤ startLedger then .handoff cfg tip
        else .reading (.ledger startLedger) tip := by
  have hallowed := isAllowedFilters_forContracts cfg
  cases start with
  | cursor cursor =>
    have hparsed : (GetEventsParams.forContracts cfg.contractIds none (some cursor) limit).parsed =
      .ok (.cursor cursor) := rfl
    change Serving.getEventsHandler cfg tip (.forContracts cfg.contractIds none (some cursor) limit) = _
    rw [Serving.getEventsHandler, hparsed]
    simp only [hallowed, Bool.true_eq_false, if_false]
  | ledger startLedger =>
    have hparsed : (GetEventsParams.forContracts cfg.contractIds (some startLedger) none limit).parsed =
      .ok (.ledger startLedger) := rfl
    change Serving.getEventsHandler cfg tip (.forContracts cfg.contractIds (some startLedger) none limit) = _
    rw [Serving.getEventsHandler, hparsed]
    simp only [hallowed, Bool.true_eq_false, if_false]

theorem Following.ask (h : Following feed cfg s client) (tip limit : Nat) :
    Answering feed cfg s client (.getEvents cfg tip (Client.request cfg.contractIds limit client.next)) := by
  have hnext := h.next
  rw [getEvents_request]
  cases hstart : client.next with
  | cursor cursor => exact hstart
  | ledger startLedger =>
    rw [hstart] at hnext
    dsimp only
    split
    · -- No event of the contracts is older than the first deployment.
      rename_i hcutoff
      rw [show startLedger = cfg.minDeploymentLedger from hnext] at hcutoff
      intro event hevent hid hmin hlt
      omega
    · exact hstart

theorem Following.receivePage (h : Following feed cfg s client) (hchained : Chained feed cfg s)
    (hpage : s.getCached client.next = some page) :
    Stands feed cfg s (client.received ++ page.events) (.cursor page.cursor) := by
  have hnext := h.next
  have hanswers := (hchained.pages client.next page hpage).1
  have hbefore : Holds feed cfg (feed.startPlace client.next) client.received := by
    cases hstart : client.next with
    | cursor cursor =>
      rw [hstart] at hnext
      exact hnext.2
    | ledger startLedger =>
      rw [hstart] at hnext
      intro event hevent hid hmin
      have hlt := Feed.ledger_lt_of_mem_take hevent
      rw [show startLedger = cfg.minDeploymentLedger from hnext] at hlt
      omega
  constructor
  · cases hstart : client.next with
    | cursor cursor =>
      rw [hstart] at hnext hpage
      exact hnext.1.next hpage
    | ledger startLedger =>
      rw [hstart] at hnext hpage
      rw [show startLedger = cfg.minDeploymentLedger from hnext] at hpage
      exact .first hpage
  · intro event hevent hid hmin
    rw [← take_append_drop (feed.startPlace client.next) (feed.log.take _), mem_append] at hevent
    rcases hevent with hold | hnew
    · rw [take_take, Nat.min_comm, ← take_take] at hold
      exact mem_append_left _ (hbefore event (mem_of_mem_take hold) hid hmin)
    · apply mem_append_right
      rw [hanswers.events, mem_filter]
      exact ⟨hnew, contains_iff_mem.mpr hid⟩

theorem Delivered.mono {received more : List ContractEvent}
    (h : Delivered feed cfg fromLedger received) : Delivered feed cfg fromLedger (received ++ more) :=
  fun event hevent hid hmin hlt => mem_append_left _ (h event hevent hid hmin hlt)

theorem Following.receive (h : Following feed cfg s client) (hchained : Chained feed cfg s)
    {result : Except ErrorObject Page} (hserving : client.serving = some (.answered result)) :
    Following feed cfg s (client.receive result) := by
  have hanswering := h.serving _ hserving
  match result with
  | .ok page =>
    exact ⟨h.receivePage hchained hanswering, nofun, fun fromLedger hfrom => (h.handedOff fromLedger hfrom).mono⟩
  | .error (.retentionHandoff fromLedger) =>
    refine ⟨h.next, nofun, ?_⟩
    rintro _ ⟨⟩
    exact hanswering
  | .error (.invalidParams _) | .error (.cacheMiss _) => exact ⟨h.next, nofun, h.handedOff⟩

theorem inv_initial : Inv feed cfg (initial cfg) := ⟨chained_fresh, trivial, ⟨rfl, nofun, nofun⟩⟩

theorem Inv.step (h : Inv feed cfg x) (hcareful : Careful cfg x) (hstep : Step cfg feed x y) : Inv feed cfg y := by
  cases hstep with
  | getLatestLedger sequence => exact ⟨h.chained, trivial, h.client⟩
  | getEvents start pages answer hround hserves =>
    have hfollows := h.round
    rw [hround] at hfollows
    exact ⟨h.chained, ⟨hfollows, hserves.answers⟩, h.client⟩
  | store =>
    obtain ⟨hchained, hround, hgrows⟩ := await_keeps hcareful h.chained h.round
    exact ⟨hchained, hround, h.client.mono hgrows⟩
  | fail => exact ⟨h.chained, trivial, h.client⟩
  | restart => exact ⟨h.chained, trivial, ⟨h.client.next, nofun, h.client.handedOff⟩⟩
  | ask limit =>
    refine ⟨h.chained, h.round, ⟨h.client.next, ?_, h.client.handedOff⟩⟩
    rintro _ ⟨⟩
    exact h.client.ask x.ledgerTip limit
  | await serving hserving =>
    refine ⟨h.chained, h.round, ⟨h.client.next, ?_, h.client.handedOff⟩⟩
    rintro _ ⟨⟩
    exact h.client.await h.chained hcareful hserving
  | receive result hserving => exact ⟨h.chained, h.round, h.client.receive h.chained hserving⟩
  | lost => exact ⟨h.chained, h.round, ⟨h.client.next, nofun, h.client.handedOff⟩⟩

theorem handoff_complete (hrun : ReflTransGen (fun x y => Careful cfg x ∧ Step cfg feed x y)
    (initial cfg) x) {fromLedger : Nat} (hfrom : x.client.fromLedger = some fromLedger) :
    Delivered feed cfg fromLedger x.client.received := by
  have hinv : Inv feed cfg x := by
    clear hfrom
    induction hrun with
    | refl => exact inv_initial
    | tail _ hstep ih => exact ih.step hstep.1 hstep.2
  exact hinv.client.handedOff fromLedger hfrom

end

section Sample

def sampleConfig : Config where
  redirectDays := 5
  ledgerSeconds := 5
  maxPagesPerRound := 10
  pageSize := 300
  initialLedgerTip := 0
  contractIds := ["A"]
  minDeploymentLedger := 10

def firstEvent : ContractEvent := ⟨"a", 10, "A", [], []⟩

def secondEvent : ContractEvent := ⟨"b", 20, "A", [], []⟩

/-- Cursors are the ledgers up to which a search went. -/
def sampleFeed : Feed where
  log := [firstEvent, secondEvent]
  ordered := by decide
  ids := by decide
  positive := by decide
  place cursor := if cursor = "12" ∨ cursor = "15" then 1 else if cursor = "100000" then 2 else 0

theorem serves_first : Serves sampleFeed sampleConfig (.ledger 10) ⟨"12", [firstEvent], 12⟩ :=
  ⟨⟨rfl, nofun⟩, by decide, by decide, by decide, by decide⟩

theorem serves_repeated : Serves sampleFeed sampleConfig (.cursor "12") ⟨"12", [], 12⟩ :=
  ⟨⟨rfl, fun _ => by decide⟩, by decide, by decide, by decide, by decide⟩

theorem serves_moved : Serves sampleFeed sampleConfig (.cursor "12") ⟨"15", [], 15⟩ :=
  ⟨⟨rfl, fun _ => by decide⟩, by decide, by decide, by decide, by decide⟩

theorem serves_second {cursor : String} (hcursor : cursor = "12" ∨ cursor = "15") :
    Serves sampleFeed sampleConfig (.cursor cursor) ⟨"100000", [secondEvent], 100000⟩ := by
  rcases hcursor with rfl | rfl <;> exact ⟨⟨rfl, nofun⟩, by decide, by decide, by decide, by decide⟩

theorem serves_end : Serves sampleFeed sampleConfig (.cursor "100000") ⟨"100000", [], 100000⟩ :=
  ⟨⟨rfl, fun _ => by decide⟩, by decide, by decide, by decide, by decide⟩

abbrev StepIf (premise : Prop) (x y : State) : Prop :=
  (premise → Careful sampleConfig x) ∧ Step sampleConfig sampleFeed x y

abbrev Runs (premise : Prop) : State → State → Prop := ReflTransGen (StepIf premise)

def firstPage : Page := ⟨"12", [firstEvent], 12⟩

def secondPage : Page := ⟨"100000", [secondEvent], 100000⟩

def Storage.fetched (s : Storage) (start : EventStart) (page : Page) : Storage :=
  (((s.setLedgerTip page.latestLedger).setInSync false).insertGetEventsPage start page).updateCursor page.cursor

def Storage.caughtUp (s : Storage) (cursor : String) (latestLedger : Nat) : Storage :=
  ((s.updateCursor cursor).setLastFullyIndexedLedger latestLedger).setInSync true

def lastStorage (cursor : String) (latestLedger : Nat) : Storage :=
  (((Storage.fresh.fetched (.ledger 10) firstPage).caughtUp cursor latestLedger).fetched (.cursor cursor)
    secondPage).caughtUp "100000" 100000

def newClient : Client := ⟨[], .ledger 10, none, none⟩

variable {premise : Prop} {storage : Storage} {latestLedger : Nat}

theorem quiet {x : State} (hfetched : ∀ start pages answer, x.round ≠ .fetched start pages answer)
    (hinsert : ∀ start pages answer, x.round ≠ .insert start pages answer)
    (hmissed : ∀ start tip, x.client.serving ≠ some (.missed start tip)) (_ : premise) : Careful sampleConfig x :=
  ⟨fun start pages answer h => absurd h (hfetched start pages answer),
    fun start pages answer _ h => absurd h (hinsert start pages answer),
    fun start tip h => absurd h (hmissed start tip)⟩

theorem fetch_steps (storage : Storage) {event : ContractEvent} {tip : Nat}
    (hstart : Sdk.Indexer.eventStart 10 storage.lastCursor = start)
    (hserves : Serves sampleFeed sampleConfig start ⟨cursor, [event], latestLedger⟩)
    (hfresh : ((storage.setLedgerTip latestLedger).setInSync false).getCached start = none) :
    Runs premise ⟨tip, storage, .idle, newClient⟩ ⟨latestLedger, storage.fetched start ⟨cursor, [event], latestLedger⟩,
      .request (.cursor cursor) 8, newClient⟩ := by
  subst hstart
  refine .tail (.tail (.tail (.tail (.tail (.tail (.single ⟨quiet nofun nofun nofun, .getLatestLedger latestLedger rfl⟩)
    ⟨quiet nofun nofun nofun, .store⟩) ⟨quiet nofun nofun nofun, .store⟩)
    ⟨quiet nofun nofun nofun, .getEvents _ _ _ rfl hserves⟩) ⟨fun _ => ⟨?_, nofun, nofun⟩, .store⟩)
    ⟨fun _ => ⟨nofun, ?_, nofun⟩, .store⟩) ⟨quiet nofun nofun nofun, .store⟩
  · rintro _ _ _ ⟨⟩ ⟨⟩
  · rintro _ _ _ page ⟨⟩ hpage
    exact absurd (hfresh.symm.trans hpage) nofun

theorem empty_steps {old : String} {tip : Nat}
    (hserves : Serves sampleFeed sampleConfig (.cursor old) ⟨cursor, [], latestLedger⟩)
    (hrepeats : premise → cursor = old) :
    Runs premise ⟨tip, storage, .request (.cursor old) 8, newClient⟩
      ⟨tip, storage.caughtUp cursor latestLedger, .idle, newClient⟩ := by
  refine .tail (.tail (.tail (.single ⟨quiet nofun nofun nofun, .getEvents _ _ _ rfl hserves⟩)
    ⟨fun hpremise => ⟨?_, nofun, nofun⟩, .store⟩) ⟨quiet nofun nofun nofun, .store⟩)
    ⟨quiet nofun nofun nofun, .store⟩
  rintro _ _ _ ⟨⟩ -
  rw [hrepeats hpremise]

theorem indexer_steps (hempty : Serves sampleFeed sampleConfig (.cursor "12") ⟨cursor, [], latestLedger⟩)
    (hserves : Serves sampleFeed sampleConfig (.cursor cursor) secondPage) (hrepeats : premise → cursor = "12") :
    Runs premise (initial sampleConfig) ⟨100000, lastStorage cursor latestLedger, .idle, newClient⟩ :=
  (fetch_steps .fresh rfl serves_first rfl).trans <| (empty_steps hempty hrepeats).trans <|
    (fetch_steps (.caughtUp _ cursor latestLedger) rfl hserves rfl).trans (empty_steps serves_end fun _ => rfl)

section Client
variable {received : List ContractEvent} {ledger : Nat}

abbrev asking (storage : Storage) (client : Client) : State := ⟨100000, storage, .idle, client⟩

theorem sample_cutoff : sampleConfig.cutoffLedger 100000 = 13600 := by decide

theorem ask_steps (start : EventStart) : StepIf premise (asking storage ⟨received, start, none, none⟩)
    (asking storage ⟨received, start, some (.getEvents sampleConfig 100000
      (Client.request sampleConfig.contractIds 300 start)), none⟩) :=
  ⟨quiet nofun nofun nofun, .ask 300 rfl rfl⟩

theorem await_step {serving : Serving} (start : EventStart) (hmissed : ∀ start tip, serving ≠ .missed start tip) :
    StepIf premise (asking storage ⟨received, start, some serving, none⟩)
      (asking storage ⟨received, start, some (serving.await sampleConfig storage), none⟩) :=
  ⟨quiet nofun nofun fun start tip h => hmissed start tip (Option.some.inj h), .await serving rfl⟩

theorem reading_steps {page : Page} (hpage : storage.getCached start = some page) :
    Runs premise (asking storage ⟨received, start, some (.reading start 100000), none⟩)
      (asking storage ⟨received ++ page.events, .cursor page.cursor, none, none⟩) := by
  have hawait := @await_step premise storage received (.reading start 100000) start nofun
  rw [Serving.await, hpage] at hawait
  exact .tail (.single hawait) ⟨quiet nofun nofun nofun, .receive (.ok page) rfl⟩

theorem first_client (hpage : storage.getCached (.ledger 10) = some firstPage) :
    Runs premise (asking storage newClient) (asking storage ⟨[firstEvent], .cursor "12", none, none⟩) := by
  have hask := @ask_steps premise storage [] (.ledger 10)
  rw [getEvents_request] at hask
  dsimp only at hask
  rw [if_neg (by rw [sample_cutoff]; decide)] at hask
  exact .head hask (reading_steps hpage)

theorem lookup_steps (cursor : String) (hledger : storage.ledgerByCursorOut cursor = some ledger)
    (hold : ledger < 13600) :
    Runs premise (asking storage ⟨received, .cursor cursor, none, none⟩)
      (asking storage ⟨received, .cursor cursor, some (.reading (.cursor cursor) 100000), none⟩) := by
  have hask := @ask_steps premise storage received (.cursor cursor)
  rw [getEvents_request] at hask
  have hawait := @await_step premise storage received (.lookup cursor 100000) (.cursor cursor) nofun
  rw [Serving.await, hledger, Serving.afterLookup, if_neg (by rw [sample_cutoff]; omega)] at hawait
  exact .tail (.single hask) hawait

theorem missing_steps (cursor : String) (hledger : storage.ledgerByCursorOut cursor = some ledger)
    (hold : ledger < 13600) (hmissing : storage.getCached (.cursor cursor) = none)
    (hsynced : storage.inSync = true) (hfull : storage.lastFullyIndexedLedger = 100000) :
    Runs premise (asking storage ⟨received, .cursor cursor, none, none⟩)
      (asking storage ⟨received, .cursor cursor, none, some 13600⟩) := by
  have hawait := @await_step premise storage received (.reading (.cursor cursor) 100000) (.cursor cursor) nofun
  rw [Serving.await, hmissing] at hawait
  have hmissed : StepIf premise
      (asking storage ⟨received, .cursor cursor, some (.missed (.cursor cursor) 100000), none⟩)
      (asking storage ⟨received, .cursor cursor,
        some (Serving.await sampleConfig storage (.missed (.cursor cursor) 100000)), none⟩) := by
    refine ⟨fun _ => ⟨nofun, nofun, ?_⟩, .await _ rfl⟩
    rintro start tip ⟨⟩ -
    refine ⟨hmissing, ?_⟩
    rw [sample_cutoff, hfull]
    decide
  rw [Serving.await, hsynced, if_pos rfl, Serving.handoff, sample_cutoff] at hmissed
  exact .trans (lookup_steps cursor hledger hold) (.tail (.tail (.single hawait) hmissed)
    ⟨quiet nofun nofun nofun, .receive (.error (.retentionHandoff 13600)) rfl⟩)

end Client

theorem handoff_complete_sample : ∃ x,
    ReflTransGen (fun x y => Careful sampleConfig x ∧ Step sampleConfig sampleFeed x y)
      (initial sampleConfig) x ∧
    x.client.fromLedger = some 13600 ∧ Delivered sampleFeed sampleConfig 13600 x.client.received := by
  have hsecond : (lastStorage "12" 12).getCached (.cursor "12") = some secondPage := rfl
  have hrun : Runs True (initial sampleConfig)
      (asking (lastStorage "12" 12) ⟨[firstEvent, secondEvent], .cursor "100000", none, some 13600⟩) :=
    (indexer_steps serves_repeated (serves_second (.inl rfl)) fun _ => rfl).trans <| (first_client rfl).trans <|
      (lookup_steps "12" rfl (by decide)).trans <| (reading_steps hsecond).trans
        (missing_steps "100000" rfl (by decide) rfl rfl rfl)
  have hcareful : ReflTransGen (fun x y => Careful sampleConfig x ∧ Step sampleConfig sampleFeed x y)
      _ _ := ReflTransGen.mono (fun _ _ h => ⟨h.1 trivial, h.2⟩) _ _ hrun
  exact ⟨_, hcareful, rfl, handoff_complete hcareful rfl⟩

/-- The empty page moved the saved cursor: the second page is under a cursor that no client gets. -/
theorem handoff_loses_event : ∃ x event,
    ReflTransGen (Step sampleConfig sampleFeed) (initial sampleConfig) x ∧
    x.client.fromLedger = some 13600 ∧ event ∈ sampleFeed.log ∧ event.contractId ∈ sampleConfig.contractIds ∧
    sampleConfig.minDeploymentLedger ≤ event.ledger ∧ event.ledger < 13600 ∧ event ∉ x.client.received := by
  have hrun : Runs False (initial sampleConfig)
      (asking (lastStorage "15" 15) ⟨[firstEvent], .cursor "12", none, some 13600⟩) :=
    (indexer_steps serves_moved (serves_second (.inr rfl)) False.elim).trans <| (first_client rfl).trans
      (missing_steps "12" rfl (by decide) rfl rfl rfl)
  exact ⟨_, secondEvent, ReflTransGen.mono (fun _ _ h => h.2) _ _ hrun, rfl,
    mem_of_getElem? (i := 1) rfl, by decide, by decide, by decide, by simp [firstEvent, secondEvent]⟩

end Sample

end PrivatePayments.Bootnode
