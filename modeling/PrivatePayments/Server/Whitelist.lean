import Mathlib.Data.List.Nodup
import Mathlib.Logic.Relation

/-! `server/index.js`: the whitelist backend.  A handler runs without interruption up to its
next `await`; in between any other handler may run. -/
namespace PrivatePayments.Whitelist
open List

inductive Status where
  | pending
  | approved
  deriving DecidableEq

structure LastError where
  time : String
  detail : String

structure Record where
  id : String
  notePublicKey : String
  aspSecret : String
  label : String
  status : Status
  createdAt : String
  leafHex : Option String
  leafDec : Option String
  txHash : Option String
  approvedAt : Option String
  lastError : Option LastError

/-- The records file, which need not exist. -/
abbrev File := Option (List Record)

def loadRecords (file : File) : List Record := file.getD []

def saveRecords (records : List Record) : File := some records

/-- White space and line terminators of JavaScript. -/
def isSpace (c : Char) : Bool :=
  let n := c.toNat
  9 ≤ n && n ≤ 13 || 0x2000 ≤ n && n ≤ 0x200a ||
    [0x20, 0xa0, 0x1680, 0x2028, 0x2029, 0x202f, 0x205f, 0x3000, 0xfeff].contains n

def trim (text : String) : String :=
  String.ofList ((text.toList.dropWhile isSpace).reverse.dropWhile isSpace).reverse

def digit? (base : Nat) (c : Char) : Option Nat :=
  let value := if c.isDigit then c.toNat - 48 else if c.isAlpha then c.toLower.toNat - 87 else base
  if value < base then some value else none

def digits? (base : Nat) (text : List Char) : Option Int :=
  if text.isEmpty then none
  else (text.mapM (digit? base)).map fun digits => (digits.foldl (fun n digit => n * base + digit) 0 : Nat)

/-- `BigInt` of a text, or `none` where it throws. -/
def bigInt (text : String) : Option Int :=
  match (trim text).toList with
  | [] => some 0
  | '-' :: digits => (digits? 10 digits).map (- ·)
  | '+' :: digits => digits? 10 digits
  | '0' :: 'x' :: digits | '0' :: 'X' :: digits => digits? 16 digits
  | '0' :: 'o' :: digits | '0' :: 'O' :: digits => digits? 8 digits
  | '0' :: 'b' :: digits | '0' :: 'B' :: digits => digits? 2 digits
  | digits => digits? 10 digits

def canonicalize (value : Option String) (label : String) : Except String String :=
  let trimmed := trim (value.getD "")
  if trimmed = "" then .error (label ++ " is required")
  else
    match bigInt trimmed with
    | none => .error (label ++ " must be a hex or decimal integer")
    | some parsed =>
      let hex := Nat.toDigits 16 parsed.toNat
      if parsed < 0 then .error (label ++ " must be non-negative")
      else if 64 < hex.length then .error (label ++ " does not fit into 256 bits")
      else .ok ("0x" ++ String.ofList (hex.leftpad 64 '0'))

/-- The status code and the fields of the body that a handler sets. -/
structure Response where
  code : Nat
  id : Option String := none
  status : Option Status := none
  txHash : Option String := none
  error : Option String := none
  detail : Option String := none

structure RequestBody where
  notePublicKey : Option String
  aspSecret : Option String
  label : Option String

def canonicalBody (body : RequestBody) : Except String (String × String × String) := do
  let label := body.label.getD ""
  let label ← if label = "" ∨ trim label = "" then .error "label is required" else .ok (trim label)
  let canonicalKey ← canonicalize body.notePublicKey "notePublicKey"
  let canonicalSecret ← canonicalize body.aspSecret "aspSecret"
  return (label, canonicalKey, canonicalSecret)

def request (body : RequestBody) (randomUUID now : String) (file : File) : Response × File :=
  match canonicalBody body with
  | .error message => ({ code := 400, error := some message }, file)
  | .ok (label, canonicalKey, canonicalSecret) =>
    let records := loadRecords file
    if records.any (·.notePublicKey == canonicalKey) then
      ({ code := 409, error := some "notePublicKey already registered" }, file)
    else
      let record : Record :=
        { id := randomUUID
          notePublicKey := canonicalKey
          aspSecret := canonicalSecret
          label
          status := .pending
          createdAt := now
          leafHex := none
          leafDec := none
          txHash := none
          approvedAt := none
          lastError := none }
      ({ code := 201, id := some record.id, status := some record.status }, saveRecords (records ++ [record]))

structure ApproveBody where
  id : Option String
  notePublicKey : Option String

/-- `find`, with the place of the record in the list. -/
def findRecord (records : List Record) (p : Record → Bool) : Option (Nat × Record) :=
  (records.findIdx? p).bind fun index => records[index]?.map (index, ·)

/-- An approval that waits: its own copy of the records and the one that is approved, and the
leaf once the leaf tool has answered. -/
structure Approval where
  records : List Record
  index : Nat
  record : Record
  leaf : Option (String × String)

def startApproval (records : List Record) : Option (Nat × Record) → Except Response Approval
  | none => .error { code := 404, error := some "record not found" }
  | some (index, record) =>
    if record.status = .approved then
      .error { code := 409, error := some "already approved", id := some record.id, txHash := record.txHash }
    else .ok { records, index, record, leaf := none }

/-- Up to the first `await`.  The key is canonicalized for each record that it is compared with. -/
def approve (body : ApproveBody) (file : File) : Except Response Approval :=
  let id := body.id.getD ""
  let records := loadRecords file
  if id = "" ∧ body.notePublicKey.getD "" = "" then
    .error { code := 400, error := some "id or notePublicKey is required" }
  else if id ≠ "" then startApproval records (findRecord records (·.id == id))
  else if records.isEmpty then startApproval records none
  else
    match canonicalize body.notePublicKey "notePublicKey" with
    | .error message => .error { code := 400, error := some message }
    | .ok key => startApproval records (findRecord records (·.notePublicKey == key))

/-- A rejected call of one of the two programs. -/
structure Failure where
  message : String
  stderr : String

def Failure.detail (err : Failure) : String :=
  if err.stderr = "" then err.message else err.message ++ "\n" ++ err.stderr

/-- How the chain call ends.  It may fail, for instance by its timeout, with the leaf inserted. -/
inductive Insertion where
  | succeeded (txHash : Option String)
  | failed (landed : Bool) (err : Failure)

/-- `landed` lists, per record, the insertions that the chain has executed. -/
structure State where
  file : File
  waiting : List Approval
  answers : List Response
  landed : List String
  issued : List String

/-- The approval saves its records with the changed one and answers. -/
def State.finish (x : State) (handler : Nat) (approval : Approval) (record : Record) (landed : Bool)
    (answer : Response) : State :=
  { x with
    file := saveRecords (approval.records.set approval.index record)
    waiting := x.waiting.eraseIdx handler
    answers := answer :: x.answers
    landed := if landed then record.id :: x.landed else x.landed }

def State.approved (x : State) (handler : Nat) (approval : Approval) (leaf : String × String)
    (txHash : Option String) (now : String) : State :=
  let record := { approval.record with
    status := .approved
    leafHex := some leaf.1
    leafDec := some leaf.2
    txHash
    approvedAt := some now
    lastError := none }
  x.finish handler approval record true { code := 200, id := some record.id, status := some record.status, txHash }

def State.failed (x : State) (handler : Nat) (approval : Approval) (err : Failure) (landed : Bool) (now : String) :
    State :=
  let record := { approval.record with lastError := some ⟨now, err.detail⟩ }
  x.finish handler approval record landed
    { code := 502
      error := some "on-chain insert failed"
      detail := some err.detail
      id := some record.id
      status := some record.status }

inductive Event where
  | request (body : RequestBody) (randomUUID now : String)
  | approve (body : ApproveBody)
  | deriveLeaf (handler : Nat) (outcome : Except Failure (String × String)) (now : String)
  | insertLeafOnChain (handler : Nat) (outcome : Insertion) (now : String)

/-- `randomUUID` never repeats an id; only a waiting handler is resumed. -/
def step (x : State) : Event → Option State
  | .request body randomUUID now =>
    if randomUUID ∈ x.issued then none
    else
      let (answer, file) := request body randomUUID now x.file
      some { x with file, answers := answer :: x.answers, issued := randomUUID :: x.issued }
  | .approve body =>
    match approve body x.file with
    | .error answer => some { x with answers := answer :: x.answers }
    | .ok approval => some { x with waiting := x.waiting ++ [approval] }
  | .deriveLeaf handler outcome now =>
    match x.waiting[handler]?, outcome with
    | some ⟨records, index, record, none⟩, .ok leaf =>
      some { x with waiting := x.waiting.set handler ⟨records, index, record, some leaf⟩ }
    | some ⟨records, index, record, none⟩, .error err =>
      some (x.failed handler ⟨records, index, record, none⟩ err false now)
    | _, _ => none
  | .insertLeafOnChain handler outcome now =>
    match x.waiting[handler]?, outcome with
    | some ⟨records, index, record, some leaf⟩, .succeeded txHash =>
      some (x.approved handler ⟨records, index, record, some leaf⟩ leaf txHash now)
    | some ⟨records, index, record, some leaf⟩, .failed landed err =>
      some (x.failed handler ⟨records, index, record, some leaf⟩ err landed now)
    | _, _ => none

def start (file : File) : State where
  file
  waiting := []
  answers := []
  landed := []
  issued := (loadRecords file).map Record.id

def Response.SaysApproved (answer : Response) : Prop :=
  answer.status = some .approved ∨ answer.error = some "already approved"

structure Kept (x : State) : Prop where
  created : ∀ answer ∈ x.answers, answer.code = 201 → ∃ record ∈ loadRecords x.file, answer.id = some record.id
  approved : ∀ answer ∈ x.answers, answer.SaysApproved → ∀ record ∈ loadRecords x.file,
    answer.id = some record.id → record.status = .approved
  inserted : ∀ id, x.landed.count id ≤ 1

/-- No handler that is to write starts while an approval waits, and no chain call that fails has
inserted the leaf. -/
def serial (x : State) : Event → Bool
  | .request body randomUUID now => x.waiting.isEmpty || (request body randomUUID now x.file).1.code != 201
  | .approve body => x.waiting.isEmpty || !(approve body x.file).isOk
  | .insertLeafOnChain _ (.failed landed _) _ => !landed
  | _ => true

/-- The record that an answer names is there, and approved if the answer says so. -/
structure Response.Holds (records : List Record) (answer : Response) : Prop where
  created : answer.code = 201 → answer.id.isSome
  named : ∀ id ∈ answer.id, ∃ record ∈ records, record.id = id ∧ (answer.SaysApproved → record.status = .approved)

/-- No record is gone, and none that was approved is pending. -/
def Extends (records records' : List Record) : Prop :=
  ∀ record ∈ records, ∃ record' ∈ records', record'.id = record.id ∧
    (record.status = .approved → record'.status = .approved)

theorem Response.Holds.mono {records records' : List Record} {answer : Response} (h : answer.Holds records)
    (hextends : Extends records records') : answer.Holds records' where
  created := h.created
  named id hid := by
    obtain ⟨record, hrecord, rfl, happroved⟩ := h.named id hid
    obtain ⟨record', hrecord', hsame, hstatus⟩ := hextends record hrecord
    exact ⟨record', hrecord', hsame, hstatus ∘ happroved⟩

theorem request_cases (body : RequestBody) (randomUUID now : String) (file : File) :
    (∃ answer, request body randomUUID now file = (answer, file) ∧ answer.Holds (loadRecords file)) ∨
      ∃ answer record, request body randomUUID now file = (answer, some (loadRecords file ++ [record])) ∧
        record.id = randomUUID ∧ answer.code = 201 ∧ answer.Holds (loadRecords file ++ [record]) := by
  unfold request
  split
  · exact .inl ⟨_, rfl, by simp, by simp⟩
  · dsimp only
    split
    · exact .inl ⟨_, rfl, by simp, by simp⟩
    · exact .inr ⟨_, _, rfl, rfl, rfl, by simp, by simp [Response.SaysApproved]⟩

/-- What an approval holds while it waits, as long as the file is the one it has read. -/
structure Approval.Current (file : File) (approval : Approval) : Prop where
  records : approval.records = loadRecords file
  place : approval.records[approval.index]? = some approval.record
  pending : approval.record.status = .pending

variable {file : File}

theorem startApproval_spec {found : Option (Nat × Record)}
    (hfound : ∀ p ∈ found, (loadRecords file)[p.1]? = some p.2) :
    (∃ answer, startApproval (loadRecords file) found = .error answer ∧ answer.Holds (loadRecords file)) ∨
      ∃ approval, startApproval (loadRecords file) found = .ok approval ∧ approval.Current file := by
  cases found with
  | none => exact .inl ⟨_, rfl, by simp, by simp⟩
  | some found =>
    have hplace := hfound found rfl
    cases hstatus : found.2.status with
    | approved =>
      refine .inl ⟨_, if_pos hstatus, by simp, ?_⟩
      simpa using ⟨found.2, mem_of_getElem? hplace, rfl, fun _ => hstatus⟩
    | pending => exact .inr ⟨_, if_neg (by simp [hstatus]), rfl, hplace, hstatus⟩

theorem findRecord_place {records : List Record} {p : Record → Bool} :
    ∀ found ∈ findRecord records p, records[found.1]? = some found.2 := by
  simp only [findRecord, Option.mem_def, Option.bind_eq_some_iff, Option.map_eq_some_iff]
  rintro _ ⟨_, -, _, hrecord, rfl⟩
  exact hrecord

theorem approve_spec (body : ApproveBody) (file : File) :
    (∃ answer, approve body file = .error answer ∧ answer.Holds (loadRecords file)) ∨
      ∃ approval, approve body file = .ok approval ∧ approval.Current file := by
  unfold approve
  dsimp only
  split_ifs
  · exact .inl ⟨_, rfl, by simp, by simp⟩
  · exact startApproval_spec findRecord_place
  · exact startApproval_spec (by simp)
  · cases canonicalize body.notePublicKey "notePublicKey" with
    | error message => exact .inl ⟨_, rfl, by simp, by simp⟩
    | ok key => exact startApproval_spec findRecord_place

structure Inv (x : State) : Prop where
  ids : ((loadRecords x.file).map Record.id).Nodup
  issued : ∀ record ∈ loadRecords x.file, record.id ∈ x.issued
  answers : ∀ answer ∈ x.answers, answer.Holds (loadRecords x.file)
  nodup : x.landed.Nodup
  landed : ∀ id ∈ x.landed, ∃ record ∈ loadRecords x.file, record.id = id ∧ record.status = .approved
  waiting : ∀ approval ∈ x.waiting, x.waiting = [approval] ∧ approval.Current x.file

namespace Inv
variable {x : State} {answer : Response}

theorem kept (h : Inv x) : Kept x where
  created answer hanswer hcode := by
    obtain ⟨id, hid⟩ := Option.isSome_iff_exists.mp ((h.answers answer hanswer).created hcode)
    obtain ⟨record, hrecord, rfl, -⟩ := (h.answers answer hanswer).named id hid
    exact ⟨record, hrecord, hid⟩
  approved answer hanswer hanswered record hrecord hid := by
    obtain ⟨record', hrecord', hsame, hstatus⟩ := (h.answers answer hanswer).named _ hid
    rw [← inj_on_of_nodup_map h.ids hrecord' hrecord hsame]
    exact hstatus hanswered
  inserted := nodup_iff_count_le_one.mp h.nodup

theorem start (hids : ((loadRecords file).map Record.id).Nodup) : Inv (start file) where
  ids := hids
  issued _ := mem_map_of_mem
  answers := nofun
  nodup := nodup_nil
  landed := nofun
  waiting := nofun

section
variable (h : Inv x)
include h

theorem answered (hanswer : answer.Holds (loadRecords x.file)) {issued : List String}
    (hissued : x.issued ⊆ issued) : Inv { x with answers := answer :: x.answers, issued } :=
  { h with
    issued := fun record hrecord => hissued (h.issued record hrecord)
    answers := forall_mem_cons.mpr ⟨hanswer, h.answers⟩ }

/-- The file changes to one that breaks no promise, and nobody waits any more. -/
theorem replaced {y : State} (hextends : Extends (loadRecords x.file) (loadRecords y.file))
    (hids : ((loadRecords y.file).map Record.id).Nodup) (hissued : ∀ record ∈ loadRecords y.file, record.id ∈ y.issued)
    (hanswers : y.answers = answer :: x.answers) (hanswer : answer.Holds (loadRecords y.file))
    (hlanded : y.landed = x.landed ∨ ∃ record ∈ loadRecords y.file, record.status = .approved ∧
      record.id ∉ x.landed ∧ y.landed = record.id :: x.landed) (hwaiting : y.waiting = []) : Inv y := by
  have hsettled : ∀ id ∈ x.landed, ∃ record ∈ loadRecords y.file, record.id = id ∧ record.status = .approved := by
    intro id hid
    obtain ⟨record, hrecord, rfl, hstatus⟩ := h.landed id hid
    obtain ⟨record', hrecord', hsame, happroved⟩ := hextends record hrecord
    exact ⟨record', hrecord', hsame, happroved hstatus⟩
  refine ⟨hids, hissued, ?_, ?_, ?_, by simp [hwaiting]⟩
  · rw [hanswers]
    exact forall_mem_cons.mpr ⟨hanswer, fun other hother => (h.answers other hother).mono hextends⟩
  · rcases hlanded with heq | ⟨record, -, -, hnew, heq⟩
    · exact heq ▸ h.nodup
    · exact heq ▸ nodup_cons.mpr ⟨hnew, h.nodup⟩
  · rcases hlanded with heq | ⟨record, hrecord, hstatus, -, heq⟩
    · exact heq ▸ hsettled
    · exact heq ▸ forall_mem_cons.mpr ⟨⟨record, hrecord, rfl, hstatus⟩, hsettled⟩

variable {approval : Approval} {handler : Nat}

theorem only (hhandler : x.waiting[handler]? = some approval) :
    handler = 0 ∧ x.waiting = [approval] ∧ approval.Current x.file := by
  obtain ⟨hwaiting, hcurrent⟩ := h.waiting approval (mem_of_getElem? hhandler)
  rw [hwaiting] at hhandler
  exact ⟨by simpa using (List.getElem?_eq_some_iff.mp hhandler).1, hwaiting, hcurrent⟩

/-- A waiting approval saves: its record was pending, so nothing was promised of it. -/
theorem finish (hhandler : x.waiting[handler]? = some approval)
    {record : Record} (hid : record.id = approval.record.id) {landed : Bool}
    (hlanded : landed = true → record.status = .approved) (hcode : answer.code ≠ 201)
    (hnamed : answer.id = some record.id) (hanswered : answer.SaysApproved → record.status = .approved) :
    Inv (x.finish handler approval record landed answer) := by
  obtain ⟨rfl, hwaiting, hrecords, hplace, hpending⟩ := h.only hhandler
  obtain ⟨hlt, hget⟩ := List.getElem?_eq_some_iff.mp hplace
  have hold : approval.record ∈ loadRecords x.file := hrecords ▸ mem_of_getElem? hplace
  have hin : record ∈ approval.records.set approval.index record := mem_set hlt record
  have hids : (approval.records.set approval.index record).map Record.id = (loadRecords x.file).map Record.id := by
    rw [map_set, hid, ← map_set, ← hget, set_getElem_self, hrecords]
  have hunsettled : record.id ∉ x.landed := by
    intro hmem
    obtain ⟨other, hother, hsame, hstatus⟩ := h.landed _ hmem
    rw [inj_on_of_nodup_map h.ids hother hold (hsame.trans hid), hpending] at hstatus
    cases hstatus
  refine h.replaced (fun other hother => ?_) (hids ▸ h.ids) (fun other hother => ?_) rfl
    ⟨(absurd · hcode), fun id hid => ⟨record, hin, Option.some.inj (hnamed.symm.trans hid), hanswered⟩⟩ ?_ ?_
  · rw [← hrecords] at hother
    obtain ⟨i, hi⟩ := mem_iff_getElem?.mp hother
    by_cases heq : approval.index = i
    · subst heq
      cases hplace.symm.trans hi
      exact ⟨record, hin, hid, fun hstatus => by simp [hpending] at hstatus⟩
    · exact ⟨other, mem_of_getElem? ((getElem?_set_ne heq).trans hi), rfl, fun hstatus => hstatus⟩
  · obtain ⟨r, hr, hsame⟩ := mem_map.mp (hids ▸ mem_map_of_mem hother)
    exact hsame ▸ h.issued r hr
  · cases landed with
    | false => exact .inl rfl
    | true => exact .inr ⟨record, hin, hlanded rfl, hunsettled, rfl⟩
  · simp [State.finish, hwaiting]

theorem failed (hhandler : x.waiting[handler]? = some approval)
    (err : Failure) (now : String) : Inv (x.failed handler approval err false now) := by
  have hpending := (h.only hhandler).2.2.pending
  refine h.finish hhandler ?_ ?_ ?_ ?_ ?_ <;> simp [Response.SaysApproved, hpending]

theorem step {event : Event} {y : State} (hserial : serial x event)
    (hstep : Whitelist.step x event = some y) : Inv y := by
  cases event with
  | request body randomUUID now =>
    simp only [Whitelist.step] at hstep
    split at hstep
    · cases hstep
    · rename_i hfresh
      cases hstep
      rcases request_cases body randomUUID now x.file with ⟨_, heq, hholds⟩ | ⟨_, record, heq, rfl, hcode, hholds⟩
      · rw [heq]
        exact h.answered hholds (subset_cons_self _ _)
      · rw [heq]
        have hidle : x.waiting = [] := by simpa [serial, heq, hcode] using hserial
        refine h.replaced (fun r hr => ⟨r, mem_append_left _ hr, rfl, fun hstatus => hstatus⟩) ?_ ?_ rfl hholds
          (.inl rfl) hidle
        · simp only [loadRecords, Option.getD_some, map_append, map_cons, map_nil]
          refine h.ids.append (nodup_singleton _) (disjoint_singleton.mpr fun hmem => ?_)
          obtain ⟨r, hr, hid⟩ := mem_map.mp hmem
          exact hfresh (hid ▸ h.issued r hr)
        · simp only [loadRecords, Option.getD_some, forall_mem_append, forall_mem_singleton]
          exact ⟨fun r hr => mem_cons_of_mem _ (h.issued r hr), mem_cons_self⟩
  | approve body =>
    simp only [Whitelist.step] at hstep
    rcases approve_spec body x.file with ⟨_, heq, hholds⟩ | ⟨_, heq, hcurrent⟩
    · rw [heq] at hstep
      cases hstep
      exact h.answered hholds (List.Subset.refl _)
    · rw [heq] at hstep
      cases hstep
      have hidle : x.waiting = [] := by simpa [serial, heq, Except.isOk, Except.toBool] using hserial
      exact { h with waiting := by simpa [hidle] using hcurrent }
  | deriveLeaf handler outcome now =>
    simp only [Whitelist.step] at hstep
    split at hstep
    · rename_i hhandler
      cases hstep
      obtain ⟨rfl, hwaiting, hcurrent⟩ := h.only hhandler
      refine { h with waiting := ?_ }
      simpa [hwaiting] using ⟨hcurrent.1, hcurrent.2, hcurrent.3⟩
    · rename_i hhandler
      cases hstep
      exact h.failed hhandler _ now
    · cases hstep
  | insertLeafOnChain handler outcome now =>
    simp only [Whitelist.step] at hstep
    split at hstep
    · rename_i hhandler
      cases hstep
      refine h.finish hhandler ?_ ?_ ?_ ?_ ?_ <;> simp
    · rename_i hhandler
      cases hstep
      simp only [serial, Bool.not_eq_true'] at hserial
      rw [hserial]
      exact h.failed hhandler _ now
    · cases hstep

end

end Inv

/-- Whatever the programs answer, a server that starts nothing that writes while an approval waits,
and whose failed chain calls have inserted nothing, keeps its records. -/
theorem records_kept {file : File} {x : State} (hids : ((loadRecords file).map Record.id).Nodup)
    (hrun : Relation.ReflTransGen (fun x y => ∃ event, serial x event ∧ step x event = some y) (start file) x) :
    Kept x := by
  suffices h : Inv x from h.kept
  induction hrun with
  | refl => exact .start hids
  | tail _ hlast ih =>
    obtain ⟨event, hserial, hstep⟩ := hlast
    exact ih.step hserial hstep

theorem exists_reached {f : State → Event → Option State} {R : State → State → Prop}
    (hf : ∀ x event y, f x event = some y → R x y) {P : State → Prop} [DecidablePred P] (events : List Event) {x : State}
    (h : (events.foldlM f x).any (fun y => decide (P y)) = true) : ∃ y, Relation.ReflTransGen R x y ∧ P y := by
  induction events generalizing x with
  | nil => exact ⟨x, .refl, of_decide_eq_true h⟩
  | cons event events ih =>
    rw [foldlM_cons] at h
    cases hstep : f x event with
    | none => simp [hstep] at h
    | some z =>
      obtain ⟨y, hy, hP⟩ := ih (by simpa [hstep] using h)
      exact ⟨y, .head (hf x event z hstep) hy, hP⟩

def sampleRequest (key : String) : Event := .request ⟨some key, some "0x1f", some "l"⟩ key "t"

def sampleLeaf (handler : Nat) : Event := .deriveLeaf handler (.ok ("0x5", "5")) "t"

theorem records_kept_sample : ∃ x, (x.answers.length = 3 ∧ x.landed = ["5"]) ∧ Kept x := by
  obtain ⟨x, hrun, hx⟩ := @exists_reached
    (fun x event => if serial x event then step x event else none)
    (fun x y => ∃ event, serial x event ∧ step x event = some y)
    (fun x event y h => ⟨event, by simpa using h⟩) (fun x => x.answers.length = 3 ∧ x.landed = ["5"]) _
    [sampleRequest "5", .approve ⟨none, some " 0x5 "⟩, sampleLeaf 0, sampleRequest "05",
      .insertLeafOnChain 0 (.succeeded none) "t"] (start none) (by decide +kernel)
  exact ⟨x, hx, @records_kept none _ nodup_nil hrun⟩

instance : DecidablePred Response.SaysApproved := fun _ => inferInstanceAs (Decidable (_ ∨ _))

/-- Three approvals of one record and a request in between: the request is lost, the leaf is
inserted twice, and the third approval fails and makes the record pending again. -/
theorem overlapping_approvals : ∃ x,
    Relation.ReflTransGen (fun x y => ∃ event, step x event = some y) (start none) x ∧
      (∃ answer ∈ x.answers, answer.code = 201 ∧ ∀ record ∈ loadRecords x.file, answer.id ≠ some record.id) ∧
      (∃ answer ∈ x.answers, answer.SaysApproved ∧ ∃ record ∈ loadRecords x.file,
        answer.id = some record.id ∧ record.status = .pending) ∧ x.landed.count "5" = 2 :=
  exists_reached (fun _ event _ h => ⟨event, h⟩)
    [sampleRequest "5", .approve ⟨some "5", none⟩, .approve ⟨some "5", none⟩, .approve ⟨some "5", none⟩,
      sampleRequest "7", sampleLeaf 0, sampleLeaf 1, sampleLeaf 2, .insertLeafOnChain 0 (.succeeded none) "t",
      .insertLeafOnChain 0 (.succeeded none) "t", .insertLeafOnChain 0 (.failed false ⟨"m", ""⟩) "t"] (by decide +kernel)

end PrivatePayments.Whitelist
