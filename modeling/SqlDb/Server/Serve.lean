/-
  ONE CLIENT AND ITS SESSION ON THE SERVER  (`RemoteConnection::execute`, client/connection.cpp;
  `serve_connection`, server/server.cpp).

  The client sends a text; the server runs it in the session of the connection and answers with
  frames: COLUMNS, ROW … ROW and OK, or OK alone, or ERROR.  Only OK frames carry the state of the
  session, and the client keeps what the last one said.

  So the client is in step with its session AS LONG AS no error hides a change of it.  Whether one does
  is known from the session before, the statement and what the engine answers (`client_mirrors_iff`):
    * COMMIT of a transaction that has failed, and a ROLLBACK that the engine could not do;
    * USE and DROP DATABASE, which the engine could not commit;
    * a request that comes when the server has given up an idle transaction: it reads the error that
      was written then.

  A text has become a `Statement` before it comes here, and frames are values, not bytes.  An ERROR
  frame is its message; positions in the text, codes and the hint for the client are left out.
-/
import SqlDb.Session.Memory
import SqlDb.Session.Validated

namespace SqlDb.Server

open Sql
open Kv (Access Request)
open Interaction
open Session (Outcome Reply Statement SessionError SessionErrorCode MemoryStep Heard)

/-! ## The server's answer -/

inductive Frame
  | columns
  | row
  | ok (affectedRows : Nat) (inTransaction isWrite : Bool) (currentDatabase : Bytes)
  | error (message : Bytes)
deriving DecidableEq

/-- How reading the rows of a cursor ends. -/
inductive CursorEnd
  | complete (rows : Nat)
  | failed (message : Bytes)
  /-- There are more than `max_result_rows`. -/
  | truncated
deriving DecidableEq

structure ServerConfig where
  /-- The database of the first `USE`, if there is one to execute. -/
  defaultDatabase : Option Identifier := none
  readThreads : Nat := 0
  maxResultRows : Nat := 0

/-- What the server sees of the root of a syntax tree. -/
structure Root where
  readOnly : Bool := false
  routingKey : Option Bytes := none

/-- What a request meets on the server apart from the session. -/
structure Circumstances where
  now : Int64 := 0
  /-- The watchdog has closed the connection for reading before the request came. -/
  idleTooLong : Bool := false
  parseQueueFull : Bool := false
  /-- The queue of the service that is to execute the statement. -/
  serviceQueueFull : Bool := false
  /-- `leader_hint_for`: where the leader is, if it is another node. -/
  leaderHintFor : Bytes → Option Bytes := fun _ => none
  /-- The root of a text that the builder rejects. -/
  unbuilt : Root := {}
  cursor : CursorEnd := .complete 0
  /-- The answer does not arrive. -/
  replyLost : Bool := false

def sessionErrorMessage : SessionErrorCode → Bytes
  | .emptySql => ascii "Empty statement"
  | .parseError => ascii "Syntax error"
  | .buildError => ascii "Statement build error"
  | .validateError => ascii "Statement validation error"
  | .optimizeError => ascii "Query optimize error"
  | .executeError => ascii "Execution error"
  | .constraintViolation => ascii "Constraint violation"
  | .notSupported => ascii "Statement is not supported"
  | .transactionError => ascii "Transaction error"

/-- `to_error_frame`. -/
def toErrorFrame (error : SessionError) : Frame :=
  .error (if error.message = [] then sessionErrorMessage error.code else error.message)

/-- The last frame of a statement that ended well: only this one tells about the session. -/
def okFrame (session : Session) (rows : Nat) (isWrite : Bool) : Frame :=
  .ok rows session.inTransaction isWrite session.currentDb.name

variable (config : ServerConfig)

def rowFrames (session : Session) : CursorEnd → List Frame
  | .complete rows => .columns :: (List.replicate rows .row ++ [okFrame session rows false])
  | .failed message => [.error message]
  | .truncated => [.error (ascii "result set too large (max_result_rows=" ++
      digits config.maxResultRows ++ ascii ")")]

variable (c : Circumstances)

/-- The frames for an outcome; a process that is gone sends none. -/
def replyFrames (session : Session) :
    Outcome → List Frame
  | .crashed _ => []
  | .failed error => [toErrorFrame error]
  | .replied .done => [okFrame session 0 false]
  | .replied (.affected rows) => [okFrame session rows true]
  | .replied (.rows _) => rowFrames config session c.cursor
  | .replied .explained => rowFrames config session c.cursor

/-- `routing_key`: transaction statements belong to no group. -/
def routingKey (current : Identifier) : Query → Option Bytes
  | .dml query =>
    if query.table = ⟨[], false⟩ then none else some (Keys.dataPrefix current query.table)
  | .catalog _ => some Keys.databases
  | .transaction _ => none

def isSelect : Query → Bool
  | .dml query => query.isSelect
  | _ => false

def rootOf (session : Session) : Statement → Root
  | .parsed query _ _ => ⟨isSelect query, routingKey session.currentDb query⟩
  | _ => c.unbuilt

/-- What is said if the queue of the service is full.  Without readers a SELECT is executed in place. -/
def busyMessage (session : Session) (root : Root) : Option Bytes :=
  if session.inTransaction || !root.readOnly then some (ascii "server busy: write queue is full")
  else if config.readThreads ≠ 0 then some (ascii "server busy: read queue is full")
  else none

/-- What is said if another node leads the group of the statement. -/
def notLeader (root : Root) : Option Bytes :=
  (root.routingKey.bind c.leaderHintFor).map fun endpoint =>
    if endpoint = [] then ascii "not the leader for this group"
    else ascii "not the leader for this group; leader is at " ++ endpoint

/-- The answer, the session after it, and whether the connection goes on. -/
structure Served where
  frames : List Frame
  session : Session
  alive : Bool

/-- A request that is answered without the session. -/
def refuse (session : Session) (message : Bytes) : Served := ⟨[.error message], session, true⟩

/-- The session answers. -/
def conclude (r : Outcome × Session) : Served :=
  ⟨replyFrames config c r.2 r.1, r.2, true⟩

/-- `parse_error_to_session_error`. -/
def parseErrorToSessionError (session : Session) (error : SessionError) : SessionError :=
  if session.txFailed then Session.aborted else error

/-- `execute_parsed`, also for a tree that the builder rejects. -/
def executeTree (session : Session) (now : Int64) : Statement → Access (Outcome × Session)
  | .parsed query explain analyze => session.executeParsed now query explain analyze
  | statement => session.execute now statement

/-- A statement that could be parsed goes to its service. -/
def dispatch (session : Session) (statement : Statement) :
    Access Served :=
  let root := rootOf c session statement
  match (busyMessage config session root).filter fun _ => c.serviceQueueFull with
  | some message => pure (refuse session message)
  | none =>
    match notLeader c root with
    | some message => pure (refuse session message)
    | none => do
      let r ← executeTree session c.now statement
      pure (conclude config c r)

def rollback : Statement := .parsed (.transaction .rollback) false false

/-- The watchdog's end of a connection. -/
def timeOut (session : Session) : Access Served :=
  if session.inTransaction then do
    let r ← session.execute c.now rollback
    pure ⟨[.error (ascii ("connection terminated: idle in transaction for too long " ++
      "(transaction rolled back)"))], r.2, false⟩
  else pure ⟨[.error (ascii "connection terminated: idle for too long")], session, false⟩

/-- `serve_connection`, for one QUERY. -/
def serve (session : Session) (statement : Statement) :
    Access Served :=
  if c.idleTooLong then timeOut c session
  else if c.parseQueueFull then pure (refuse session (ascii "server busy: parse queue is full"))
  else
    match statement with
    | .empty => pure (conclude config c
        (.failed (parseErrorToSessionError session ⟨.emptySql, ascii "empty statement"⟩), session))
    | .unparsable error =>
      pure (conclude config c (.failed (parseErrorToSessionError session error), session))
    | statement => dispatch config c session statement

/-! ## The client -/

inductive Response
  | ok | error | lost
deriving DecidableEq

/-- What the client remembers of its session. -/
structure RemoteConnection where
  inTransaction : Bool := false
  currentDb : Bytes := []
deriving DecidableEq

/-- The loop of `RemoteConnection::execute`. -/
def RemoteConnection.receive (client : RemoteConnection) : List Frame → Response × RemoteConnection
  | [] => (.lost, client)
  | .columns :: rest => client.receive rest
  | .row :: rest => client.receive rest
  | .ok _ inTransaction _ currentDb :: _ => (.ok, { inTransaction, currentDb })
  | .error _ :: _ => (.error, client)

/-! ## Runs -/

/-- The two ends of a connection, and what the session's engine has become. -/
structure Link (S : Type) where
  client : RemoteConnection := {}
  session : Session := {}
  alive : Bool := true
  engine : S

/-- One request with what the engine has answered to end transactions, and its response. -/
structure Exchange (S : Type) where
  before : Link S
  circumstances : Circumstances
  statement : Statement
  heard : Heard
  response : Response
  after : Link S

section Runs

variable {S : Type} (h : Handler Request Request.Answer S) (config : ServerConfig)

/-- A new connection: the client is told nothing of the database that is in use from the start. -/
def connect (now : Int64) (engine : S) : Link S :=
  match config.defaultDatabase with
  | none => { engine }
  | some db =>
    let r := run h (({} : Session).execute now (.parsed (.catalog (.useDatabase db)) false false)) engine
    { session := r.1.2, engine := r.2 }

def exchange (link : Link S) (c : Circumstances) (statement : Statement) : Exchange S :=
  if !link.alive then ⟨link, c, statement, {}, .lost, link⟩
  else
    let served := run h (serve config c link.session statement) link.engine
    let heard := (run (watch Heard.hear h) (serve config c link.session statement) (link.engine, {})).2.2
    let received :=
      if c.replyLost then (.lost, link.client) else link.client.receive served.1.frames
    ⟨link, c, statement, heard, received.1,
      ⟨received.2, served.1.session, served.1.alive, served.2⟩⟩

/-- The exchanges of a connection, until it is lost. -/
def exchanges (link : Link S) : List (Circumstances × Statement) → List (Exchange S)
  | [] => []
  | (c, statement) :: rest =>
    let e := exchange h config link c statement
    e :: if e.response = .lost then [] else exchanges e.after rest

end Runs

/-! ## What one exchange does -/

/-- Only an OK frame changes the client, and then it knows the session. -/
def Learns (client : RemoteConnection) (session : Session) (r : Response × RemoteConnection) : Prop :=
  (r.1 = .ok ∧ r.2 = ⟨session.inTransaction, session.currentDb.name⟩) ∨ (r.1 ≠ .ok ∧ r.2 = client)

theorem learns_rowFrames (client : RemoteConnection) (session : Session)
    (cursor : CursorEnd) : Learns client session (client.receive (rowFrames config session cursor)) := by
  cases cursor with
  | complete rows =>
    left
    show (client.receive (List.replicate rows .row ++ [okFrame session rows false])).1 = _ ∧ _
    suffices hall : ∀ n, client.receive (List.replicate n .row ++ [okFrame session rows false])
        = (.ok, ⟨session.inTransaction, session.currentDb.name⟩) by
      rw [show client.receive (rowFrames config session (.complete rows)) = _ from hall rows, hall]
      exact ⟨rfl, rfl⟩
    intro n
    induction n with
    | zero => rfl
    | succ n ih => exact ih
  | failed | truncated => exact Or.inr ⟨by simp [rowFrames, RemoteConnection.receive], rfl⟩

theorem learns_replyFrames (client : RemoteConnection)
    (session : Session) (outcome : Outcome) :
    Learns client session (client.receive (replyFrames config c session outcome)) := by
  cases outcome with
  | crashed crash => exact Or.inr ⟨by simp [replyFrames, RemoteConnection.receive], rfl⟩
  | failed error =>
    exact Or.inr ⟨by simp [replyFrames, toErrorFrame, RemoteConnection.receive], rfl⟩
  | replied reply =>
    cases reply with
    | done | affected => exact Or.inl ⟨rfl, rfl⟩
    | rows | explained => exact learns_rowFrames config client session c.cursor

/-- How the server deals with a request. -/
inductive ServeStep (config : ServerConfig) (c : Circumstances) (session : Session)
    (statement : Statement) : Heard → Served → Prop
  | refused (message : Bytes) (alive : Bool) :
      ServeStep config c session statement {} ⟨[.error message], session, alive⟩
  | answered (heard : Heard) (outcome : Outcome) (after : Session) (hidle : c.idleTooLong = false)
      (hstep : MemoryStep session statement heard outcome after) :
      ServeStep config c session statement heard (conclude config c (outcome, after))
  | timedOut (heard : Heard) (message : Bytes) (outcome : Outcome) (after : Session)
      (hidle : c.idleTooLong = true) (htx : session.inTransaction = true)
      (hstep : MemoryStep session rollback heard outcome after) :
      ServeStep config c session statement heard ⟨[.error message], after, false⟩

theorem ends_executeTree (session : Session) (now : Int64) (statement : Statement) :
    (executeTree session now statement).Ends Heard.hear
      (fun o r => MemoryStep session statement o r.1 r.2) {} := by
  cases statement with
  | parsed query explain analyze => exact Session.ends_executeParsed query explain analyze
  | empty | unparsable | unbuildable => exact Session.ends_execute session now _

theorem ends_dispatch (session : Session)
    (statement : Statement) (hidle : c.idleTooLong = false) :
    (dispatch config c session statement).Ends Heard.hear (ServeStep config c session statement) {} := by
  unfold dispatch
  dsimp only
  split
  · exact ServeStep.refused _ true
  · split
    · exact ServeStep.refused _ true
    · exact (ends_executeTree session c.now statement).bind fun o r hr =>
        ServeStep.answered o r.1 r.2 hidle hr

theorem ends_serve (session : Session)
    (statement : Statement) :
    (serve config c session statement).Ends Heard.hear (ServeStep config c session statement) {} := by
  unfold serve
  split_ifs with hidle
  · unfold timeOut
    split_ifs with htx
    · exact (Session.ends_execute session c.now rollback).bind fun o r hr =>
        ServeStep.timedOut o _ r.1 r.2 hidle htx hr
    · exact ServeStep.refused _ false
  · exact ServeStep.refused _ true
  · have hidle : c.idleTooLong = false := by simpa using hidle
    cases statement with
    | empty | unparsable =>
      exact ServeStep.answered _ _ session hidle (Session.memory_early _)
    | unbuildable | parsed => exact ends_dispatch config c session _ hidle

/-- An error hides a change of the transaction, or the server has given it up. -/
def HidesTransaction {S : Type} (e : Exchange S) : Prop :=
  e.circumstances.replyLost = false ∧
    (e.before.session.LosesTransaction e.statement e.heard ∨
      (e.circumstances.idleTooLong = true ∧ e.before.session.inTransaction = true ∧
        e.heard.rollback ≠ none))

/-- An error hides a change of the database in use. -/
def HidesDatabase {S : Type} (e : Exchange S) : Prop :=
  e.circumstances.replyLost = false ∧ e.before.session.LosesDatabase e.statement e.heard

section Exchanges

variable {S : Type} (h : Handler Request Request.Answer S) (config : ServerConfig) (link : Link S)
  (c : Circumstances) (statement : Statement)

theorem exchange_before : (exchange h config link c statement).before = link := by
  unfold exchange
  split <;> rfl

theorem exchange_learns : Learns link.client (exchange h config link c statement).after.session
    ((exchange h config link c statement).response,
      (exchange h config link c statement).after.client) := by
  unfold exchange
  split
  · exact Or.inr ⟨by simp, rfl⟩
  · dsimp only
    split
    · exact Or.inr ⟨by simp, rfl⟩
    · have hstep := (ends_serve config c link.session statement).run h link.engine
      generalize (run h (serve config c link.session statement) link.engine).1 = served at hstep
      generalize (run (watch Heard.hear h) _ _).2.2 = heard at hstep
      cases hstep with
      | refused message alive => exact Or.inr ⟨by simp [RemoteConnection.receive], rfl⟩
      | answered _ outcome after => exact learns_replyFrames config c link.client after outcome
      | timedOut =>
        exact Or.inr ⟨by simp [RemoteConnection.receive], rfl⟩

/-- What an outcome hides, it hides in an error. -/
theorem received_error_iff (client : RemoteConnection)
    {statement : Statement} {heard : Heard} {outcome : Outcome} {session after : Session} {changed : Prop}
    (hstep : MemoryStep session statement heard outcome after) (hsame : after = session → ¬ changed) :
    (client.receive (replyFrames config c after outcome)).1 = .error ∧ changed ↔
      (∃ error, outcome = .failed error) ∧ changed := by
  refine and_congr_left fun hchanged => ?_
  rcases hstep.reported with heq | rfl | ⟨error, rfl⟩
  · exact absurd hchanged (hsame heq)
  · simp [replyFrames, okFrame, RemoteConnection.receive]
  · simp [replyFrames, toErrorFrame, RemoteConnection.receive]

/-- **What an exchange hides** is known from the session before, the statement and what was heard. -/
theorem exchange_hides_iff (e : Exchange S) (he : e = exchange h config link c statement) :
    (e.response = .error ∧ e.after.session.inTransaction ≠ e.before.session.inTransaction ↔
        HidesTransaction e) ∧
      (e.response = .error ∧ e.after.session.currentDb.name ≠ e.before.session.currentDb.name ↔
        HidesDatabase e) := by
  subst he
  unfold exchange HidesTransaction HidesDatabase
  split
  · simp [Session.LosesTransaction, Session.LosesDatabase]
  have hstep := (ends_serve config c link.session statement).run h link.engine
  dsimp only
  cases c.replyLost with
  | true => simp
  | false =>
    simp only [Bool.false_eq_true, if_false, true_and]
    generalize (run h (serve config c link.session statement) link.engine).1 = served at hstep
    generalize (run (watch Heard.hear h) _ _).2.2 = heard at hstep
    cases hstep with
    | refused message alive => simp [Session.LosesTransaction, Session.LosesDatabase]
    | answered _ outcome after hidle hmemory =>
      simp only [hidle, Bool.false_eq_true, false_and, or_false, ← hmemory.transaction_iff,
        ← hmemory.database_iff]
      exact ⟨received_error_iff config c _ hmemory fun heq hne => hne (congrArg _ heq),
        received_error_iff config c _ hmemory fun heq hne => hne (congrArg (fun s => s.currentDb.name) heq)⟩
    | timedOut _ message outcome after hidle htx hmemory =>
      obtain ⟨hdb, hended⟩ := hmemory.rollback_iff ⟨false, rfl⟩ htx
      refine ⟨?_, by simp [hdb, Session.LosesDatabase, htx]⟩
      rw [hended]
      simp only [RemoteConnection.receive, true_and, hidle, htx]
      refine ⟨Or.inr, ?_⟩
      rintro (⟨-, ⟨-, -, hasked⟩ | ⟨-, status, hstatus, -⟩⟩ | hasked)
      · exact hasked
      · simp [hstatus]
      · exact hasked

end Exchanges

/-! ## Whole connections -/

section Mirror

variable {S V : Type}

/-- After every response, once the client has been `told`, it knows what is the case. -/
def Mirrored (known : RemoteConnection → V) (actual : Session → V) : Bool → List (Exchange S) → Prop
  | _, [] => True
  | told, e :: rest =>
    let told := told || e.response = .ok
    (told = true → e.response ≠ .lost → known e.after.client = actual e.after.session) ∧
      Mirrored known actual told rest

instance decidableMirrored [DecidableEq V] (known : RemoteConnection → V) (actual : Session → V) :
    (told : Bool) → (es : List (Exchange S)) → Decidable (Mirrored known actual told es)
  | _, [] => .isTrue trivial
  | told, e :: rest =>
    have := decidableMirrored known actual (told || e.response = .ok) rest
    inferInstanceAs (Decidable (_ ∧ _))

/-- Once the client has been `told`, no exchange hides a change of the session. -/
def Unhidden (hides : Exchange S → Prop) : Bool → List (Exchange S) → Prop
  | _, [] => True
  | told, e :: rest =>
    (told = true → ¬ hides e) ∧ Unhidden hides (told || e.response = .ok) rest

variable (h : Handler Request Request.Answer S) (config : ServerConfig)
  {known : RemoteConnection → V} {actual : Session → V} {hides : Exchange S → Prop}

variable {link : Link S} {e : Exchange S}

/-- One exchange: a client that is in step stays so unless a change is hidden. -/
theorem exchange_mirrors_iff (hview : ∀ s : Session, known ⟨s.inTransaction, s.currentDb.name⟩ = actual s)
    {told : Bool} (hlink : told = true → known link.client = actual link.session)
    (hbefore : e.before = link)
    (hlearns : Learns link.client e.after.session (e.response, e.after.client))
    (hhides : e.response = .error ∧ actual e.after.session ≠ actual e.before.session ↔ hides e) :
    ((told || e.response = .ok) = true → e.response ≠ .lost →
        known e.after.client = actual e.after.session) ↔ (told = true → ¬ hides e) := by
  rw [← hhides]
  rcases hlearns with ⟨hok, hclient⟩ | ⟨hother, hclient⟩
  · dsimp only at hok hclient
    rw [hok, hclient, hview]
    simp
  · dsimp only at hother hclient
    rw [hclient, hbefore]
    cases hresponse : e.response with
    | ok => exact absurd hresponse hother
    | lost => simp
    | error =>
      cases told with
      | false => simp
      | true =>
        rw [hlink rfl]
        simp [eq_comm]

/-- A whole connection, by induction over its requests: the client starts in step. -/
theorem mirrored_iff_unhidden
    (hview : ∀ s : Session, known ⟨s.inTransaction, s.currentDb.name⟩ = actual s)
    (hhides : ∀ link c statement e, e = exchange h config link c statement →
      (e.response = .error ∧ actual e.after.session ≠ actual e.before.session ↔ hides e))
    (requests : List (Circumstances × Statement)) (told : Bool) (link : Link S)
    (hlink : told = true → known link.client = actual link.session) :
    Mirrored known actual told (exchanges h config link requests) ↔
      Unhidden hides told (exchanges h config link requests) := by
  induction requests generalizing told link with
  | nil => exact Iff.rfl
  | cons request rest ih =>
    obtain ⟨c, statement⟩ := request
    have hone := exchange_mirrors_iff hview hlink (exchange_before h config link c statement)
      (exchange_learns h config link c statement) (hhides link c statement _ rfl)
    show (_ ∧ Mirrored known actual _ _) ↔ (_ ∧ Unhidden hides _ _)
    generalize exchange h config link c statement = e at hone
    split_ifs with hlost
    · exact and_congr hone Iff.rfl
    · -- the tail starts from a client that is in step, or the first exchange has failed both sides
      refine (and_congr_left' hone).trans (and_congr_right fun hkept => ?_)
      exact ih _ _ fun htold => hone.mpr hkept htold hlost

theorem connect_inTransaction (now : Int64) (engine : S) :
    (connect h config now engine).session.inTransaction = false := by
  unfold connect
  split
  · rfl
  · rename_i db _
    have hstep := (Session.ends_execute {} now (.parsed (.catalog (.useDatabase db)) false false)).run
      h engine
    dsimp only
    generalize (run h (Session.execute {} now _) engine).1 = r at hstep
    generalize (run (watch Heard.hear h) _ _).2.2 = heard at hstep
    obtain ⟨outcome, after⟩ := r
    dsimp only at hstep ⊢
    cases hstep with
    | began hkind _ =>
      obtain ⟨_, hstatement⟩ := hkind
      simp at hstatement
    | _ => rfl

theorem connect_client (now : Int64) (engine : S) :
    (connect h config now engine).client = {} := by
  unfold connect
  split <;> rfl

/-- **The client mirrors its session** exactly as long as no exchange hides a change of it: after every
    response for the transaction, from the first OK on for the database in use. -/
theorem client_mirrors_iff (now : Int64) (engine : S) (requests : List (Circumstances × Statement)) :
    let es := exchanges h config (connect h config now engine) requests
    (Mirrored RemoteConnection.inTransaction Session.inTransaction true es ↔
        Unhidden HidesTransaction true es) ∧
      (Mirrored RemoteConnection.currentDb (fun s => s.currentDb.name) false es ↔
        Unhidden HidesDatabase false es) := by
  constructor
  · refine mirrored_iff_unhidden h config (fun _ => rfl)
      (fun link c statement e he => (exchange_hides_iff h config link c statement e he).1)
      requests true _ fun _ => ?_
    rw [connect_client, connect_inTransaction]
  · refine mirrored_iff_unhidden h config (fun _ => rfl)
      (fun link c statement e he => (exchange_hides_iff h config link c statement e he).2)
      requests false _ fun hfalse => ?_
    simp at hfalse

end Mirror

/-! ## COMMIT of a transaction that has failed -/

section Example

open KVCatalog (shop orders)

/-- A new connection to a store with one order. -/
def orderStore : Kv.Conn where
  store := { data := KVCatalog.contentAfter Session.oneOrder }
  engine := {}

/-- USE shop; BEGIN; an INSERT that finds its key in the table; COMMIT. -/
def failedCommit : List (Circumstances × Statement) :=
  [.parsed (.catalog (.useDatabase shop)) false false,
    .parsed (.transaction .begin) false false,
    .parsed (.dml (Session.insertOrder [Session.idColumn, Session.idColumn] [.ofInt 1, .ofInt 2]))
      false false,
    .parsed (.transaction .commit) false false].map fun statement => ({}, statement)

/-- The server has left the transaction, and the client believes to be in it. -/
theorem failed_commit_unseen :
    ¬ Mirrored RemoteConnection.inTransaction Session.inTransaction true
      (exchanges (Kv.Conn.serve 0) {} (connect (Kv.Conn.serve 0) {} 0 orderStore) failedCommit) := by
  decide +kernel

end Example

end SqlDb.Server
