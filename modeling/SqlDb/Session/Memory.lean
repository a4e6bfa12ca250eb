/-
  WHAT A STATEMENT DOES TO THE SESSION'S OWN MEMORY  (`Session`, session/session.cpp).

  The database in use and the two flags of the transaction are all that a session remembers.
  `MemoryStep` says once how they can change, for every statement and WHATEVER THE ENGINE ANSWERS; of
  the answers only those to COMMIT and ROLLBACK matter (`Heard`).  What follows from it about runs of
  statements is proved by looking at its cases only.

  Three of them change the memory although the statement reports an error:
    * COMMIT of a transaction that has failed ends it;
    * ROLLBACK ends the transaction even if the engine could not roll back;
    * USE and DROP DATABASE outside a transaction have changed the database in use before the commit
      of their own transaction fails.

  They are said in terms of the memory before, the statement and the answers: `LosesTransaction`,
  `LosesDatabase`.
-/
import SqlDb.Session.Session
import SqlDb.Statement.Accepted

namespace SqlDb.Session

open Sql Plan Exec
open Kv (Access Request)
open Interaction

/-- The statement is this transaction statement, and not explained. -/
def IsControl (kind : TransactionKind) (statement : Statement) : Prop :=
  ∃ analyze, statement = .parsed (.transaction kind) false analyze

/-- What the engine has answered to COMMIT and to ROLLBACK. -/
structure Heard where
  commit : Option Kv.Status := none
  rollback : Option Kv.Status := none

def Heard.hear : (r : Request) → r.Answer → Heard → Heard
  | .commitTransaction, status, heard => { heard with commit := some status }
  | .rollbackTransaction, status, heard => { heard with rollback := some status }
  | _, _, heard => heard

/-- The database in use after the statement, if it is done. -/
def Statement.database (current : Identifier) : Statement → Identifier
  | .parsed (.catalog (.useDatabase db)) false _ => db
  | .parsed (.catalog (.dropDatabase db)) false _ => if current.eq db then ⟨[], false⟩ else current
  | _ => current

/-- How a statement changes the memory of a session, and its outcome. -/
inductive MemoryStep (session : Session) (statement : Statement) (heard : Heard) :
    Outcome → Session → Prop
  | same (outcome : Outcome)
      (hrollback : ∀ kind, IsControl kind statement → session.inTransaction = true →
        heard.rollback = none)
      (hcommit : heard.commit = none ∨ statement.database session.currentDb = session.currentDb) :
      MemoryStep session statement heard outcome session
  | marked (error : SessionError) (hwork : ∀ kind, ¬ IsControl kind statement)
      (htx : session.inTransaction = true) :
      MemoryStep session statement heard (.failed error) { session with txFailed := true }
  | began (hkind : IsControl .begin statement) (htx : session.inTransaction = false) :
      MemoryStep session statement heard (.replied .done)
        { session with inTransaction := true, txFailed := false }
  | committed (hkind : IsControl .commit statement) (htx : session.inTransaction = true)
      (hgood : session.txFailed = false) :
      MemoryStep session statement heard (.replied .done) { session with inTransaction := false }
  | abandoned (error : SessionError) (hkind : IsControl .commit statement)
      (htx : session.inTransaction = true) (hbad : session.txFailed = true)
      (hheard : heard.rollback ≠ none) :
      MemoryStep session statement heard (.failed error)
        { session with inTransaction := false, txFailed := false }
  | rolledBack (hkind : IsControl .rollback statement) (htx : session.inTransaction = true)
      (hheard : heard.rollback = some .ok) :
      MemoryStep session statement heard (.replied .done)
        { session with inTransaction := false, txFailed := false }
  | rollbackFailed (error : SessionError) (status : Kv.Status) (hbad : status ≠ .ok)
      (hkind : IsControl .rollback statement) (htx : session.inTransaction = true)
      (hheard : heard.rollback = some status) :
      MemoryStep session statement heard (.failed error)
        { session with inTransaction := false, txFailed := false }
  | moved (hwork : ∀ kind, ¬ IsControl kind statement)
      (hheard : session.inTransaction = true ∨ heard.commit = some .ok) :
      MemoryStep session statement heard (.replied .done)
        { session with currentDb := statement.database session.currentDb }
  | movedInVain (error : SessionError) (status : Kv.Status) (hbad : status ≠ .ok)
      (hwork : ∀ kind, ¬ IsControl kind statement) (htx : session.inTransaction = false)
      (hheard : heard.commit = some status) :
      MemoryStep session statement heard (.failed error)
        { session with currentDb := statement.database session.currentDb }

/-! ## What an error can hide -/

/-- The engine has been asked to roll back a transaction that had failed, for a COMMIT, or it could not
    roll back for a ROLLBACK. -/
def LosesTransaction (session : Session) (statement : Statement) (heard : Heard) : Prop :=
  session.inTransaction = true ∧
    ((IsControl .commit statement ∧ session.txFailed = true ∧ heard.rollback ≠ none) ∨
      (IsControl .rollback statement ∧ ∃ status, heard.rollback = some status ∧ status ≠ .ok))

/-- The statement is to change the database in use, and the engine could not commit it. -/
def LosesDatabase (session : Session) (statement : Statement) (heard : Heard) : Prop :=
  session.inTransaction = false ∧ (∃ status, heard.commit = some status ∧ status ≠ .ok) ∧
    (statement.database session.currentDb).name ≠ session.currentDb.name

theorem IsControl.unique {kind kind' : TransactionKind} {statement : Statement}
    (h : IsControl kind statement) (h' : IsControl kind' statement) : kind = kind' := by
  obtain ⟨_, rfl⟩ := h
  obtain ⟨_, h'⟩ := h'
  simp_all

theorem IsControl.database {kind : TransactionKind} {statement : Statement}
    (h : IsControl kind statement) (current : Identifier) : statement.database current = current := by
  obtain ⟨_, rfl⟩ := h
  rfl

section Hidden

variable {session after : Session} {statement : Statement} {heard : Heard} {outcome : Outcome}
  (h : MemoryStep session statement heard outcome after)
include h

/-- **An error hides a change of the transaction** exactly in these cases. -/
theorem MemoryStep.transaction_iff :
    ((∃ error, outcome = .failed error) ∧ after.inTransaction ≠ session.inTransaction) ↔
      session.LosesTransaction statement heard := by
  unfold LosesTransaction
  cases h with
  | same _ hrollback =>
    refine iff_of_false (fun hx => hx.2 rfl) ?_
    rintro ⟨htx, ⟨hkind, -, hasked⟩ | ⟨hkind, status, hasked, -⟩⟩
    · exact hasked (hrollback _ hkind htx)
    · simp [hrollback _ hkind htx] at hasked
  | marked error hwork | moved hwork | movedInVain error status hbad hwork =>
    exact iff_of_false (fun hx => hx.2 rfl) fun hx => hx.2.elim (fun h => hwork _ h.1) fun h => hwork _ h.1
  | began hkind htx => simp [htx]
  | committed hkind htx hgood =>
    refine iff_of_false (by simp) ?_
    rintro ⟨-, ⟨-, hfailed, -⟩ | ⟨hkind', -⟩⟩
    · simp [hgood] at hfailed
    · cases hkind.unique hkind'
  | abandoned error hkind htx hbad hheard => simp [htx, hkind, hbad, hheard]
  | rolledBack hkind htx hheard =>
    refine iff_of_false (by simp) ?_
    rintro ⟨-, ⟨hkind', -⟩ | ⟨-, status, hstatus, hne⟩⟩
    · cases hkind.unique hkind'
    · simp_all
  | rollbackFailed error status hbad hkind htx hheard => simp [htx, hkind, hheard, hbad]

/-- **An error hides a change of the database in use** exactly in these cases. -/
theorem MemoryStep.database_iff :
    ((∃ error, outcome = .failed error) ∧ after.currentDb.name ≠ session.currentDb.name) ↔
      session.LosesDatabase statement heard := by
  have hcontrol : ∀ {kind}, IsControl kind statement → ¬ session.LosesDatabase statement heard :=
    fun hkind hx => hx.2.2 (by rw [hkind.database])
  cases h with
  | same _ _ hcommit =>
    refine iff_of_false (fun hx => hx.2 rfl) ?_
    rintro ⟨-, ⟨status, hstatus, -⟩, hname⟩
    rcases hcommit with hnone | hsame
    · simp [hnone] at hstatus
    · exact hname (by rw [hsame])
  | marked error hwork htx =>
    refine iff_of_false (fun hx => hx.2 rfl) ?_
    rintro ⟨hnone, -⟩
    simp [htx] at hnone
  | began hkind | committed hkind | abandoned error hkind | rolledBack hkind
  | rollbackFailed error status hbad hkind =>
    exact iff_of_false (fun hx => hx.2 rfl) (hcontrol hkind)
  | moved hwork hheard =>
    refine iff_of_false (by simp) ?_
    rintro ⟨htx, ⟨status, hstatus, hne⟩, -⟩
    simp_all
  | movedInVain error status hbad hwork htx hheard =>
    simp [LosesDatabase, htx, hheard, hbad]

/-- A change is reported as done or as an error. -/
theorem MemoryStep.reported :
    after = session ∨ outcome = .replied .done ∨ ∃ error, outcome = .failed error := by
  cases h with
  | same => exact Or.inl rfl
  | began | committed | rolledBack | moved => exact Or.inr (Or.inl rfl)
  | _ => exact Or.inr (Or.inr ⟨_, rfl⟩)

/-- A ROLLBACK leaves the database alone, and ends the transaction if the engine is asked to. -/
theorem MemoryStep.rollback_iff
    (hrollback : IsControl .rollback statement) (htx : session.inTransaction = true) :
    after.currentDb = session.currentDb ∧
      (after.inTransaction ≠ session.inTransaction ↔ heard.rollback ≠ none) := by
  cases h with
  | same _ hnone => exact ⟨rfl, by simp [hnone _ hrollback htx]⟩
  | marked error hwork | moved hwork | movedInVain error status hbad hwork =>
    exact absurd hrollback (hwork _)
  | began hkind | committed hkind | abandoned error hkind => cases hkind.unique hrollback
  | rolledBack hkind _ hheard => exact ⟨rfl, by simp [htx, hheard]⟩
  | rollbackFailed error status hbad hkind _ hheard => exact ⟨rfl, by simp [htx, hheard]⟩

end Hidden

/-! ## The parts of a statement -/

theorem unheard {A : Type} {m : Access A} (h : Works m) :
    m.Asks fun r => ∀ answer heard, Heard.hear r answer heard = heard :=
  h.mono fun r hr => by
    cases r <;> first | exact fun _ _ => rfl | simp [Request.isData, Request.isRead, Request.isLookup] at hr

/-- The statement that is this work. -/
def Work.statement (work : Work) (analyze : Bool) : Statement :=
  match work with
  | .dml query => .parsed (.dml query) false analyze
  | .catalog query => .parsed (.catalog query) false analyze

theorem Work.not_control (work : Work) (analyze : Bool) (kind : TransactionKind) :
    ¬ IsControl kind (work.statement analyze) := by
  rintro ⟨_, h⟩
  cases work <;> cases h

/-- Work that fails changes nothing; work that ends well leaves the database in use that it is to
    leave, and only work that writes and has no other result changes it.  Then nothing is heard. -/
structure WorkDb (work : Work) (analyze : Bool) (current : Identifier) (heard : Heard)
    (r : Except Abort Reply × Identifier) : Prop where
  unheard : heard.commit = none ∨ (work.statement analyze).database current = current
  result : (∃ abort, r = (.error abort, current)) ∨
    ∃ reply, r = (.ok reply, (work.statement analyze).database current) ∧
      ((work.statement analyze).database current = current ∨ reply = .done ∧ work.isWrite = true)

section Parts

variable {heard : Heard}

theorem ends_useDatabase (current db : Identifier) : (KVCatalog.useDatabase current db).Ends Heard.hear
    (fun o r => o = heard ∧ (r = (true, db) ∨ r = (false, current))) heard := by
  refine (unheard (KVCatalog.looks_databaseExists db).points.works).ends_bind fun found => ?_
  cases found
  · exact ⟨rfl, Or.inr rfl⟩
  · exact ⟨rfl, Or.inl rfl⟩

theorem ends_dropDatabase (current db : Identifier) :
    (KVCatalog.dropDatabase current db).Ends Heard.hear (fun o r => o = heard ∧
      (r = (true, if current.eq db then ⟨[], false⟩ else current) ∨ r = (false, current))) heard := by
  refine (unheard (KVCatalog.works_removeDatabase db)).ends_bind fun removed => ?_
  cases removed
  · exact ⟨rfl, Or.inr rfl⟩
  · exact ⟨rfl, Or.inl rfl⟩

theorem ends_executeWork (now : Int64) (current : Identifier) (work : Work) (analyze : Bool)
    (hheard : heard.commit = none) :
    (executeWork now current work).Ends Heard.hear (WorkDb work analyze current) heard := by
  -- what has been heard matters for USE and DROP DATABASE only
  have hsame : ∀ {work : Work} {result : Except Abort Reply} {heard : Heard},
      (work.statement analyze).database current = current →
      WorkDb work analyze current heard (result, current) := by
    intro work result heard hdb
    refine ⟨Or.inr hdb, ?_⟩
    cases result with
    | error abort => exact Or.inl ⟨abort, rfl⟩
    | ok reply => exact Or.inr ⟨reply, by rw [hdb], Or.inl hdb⟩
  cases work with
  | dml query => exact ends_bind fun result _ => hsame rfl
  | catalog query =>
    cases query with
    | useDatabase db =>
      refine (ends_useDatabase current db).bind fun o r hr => ?_
      obtain ⟨rfl, rfl | rfl⟩ := hr
      · exact ⟨Or.inl hheard, Or.inr ⟨.done, rfl, Or.inr ⟨rfl, rfl⟩⟩⟩
      · exact ⟨Or.inl hheard, Or.inl ⟨_, rfl⟩⟩
    | dropDatabase db =>
      refine (ends_dropDatabase current db).bind fun o r hr => ?_
      obtain ⟨rfl, rfl | rfl⟩ := hr
      · exact ⟨Or.inl hheard, Or.inr ⟨.done, rfl, Or.inr ⟨rfl, rfl⟩⟩⟩
      · exact ⟨Or.inl hheard, Or.inl ⟨_, rfl⟩⟩
    | createDatabase | createTable => exact ends_bind fun created _ => hsame rfl
    | dropTable query => exact ends_bind fun dropped _ => hsame rfl

variable {session : Session} {now : Int64}

theorem memory_settle_error {statement : Statement} (abort : Abort)
    (hwork : ∀ kind, ¬ IsControl kind statement)
    (hcommit : heard.commit = none ∨ statement.database session.currentDb = session.currentDb) :
    MemoryStep session statement heard (session.settle (.error abort)).1
      (session.settle (.error abort)).2 := by
  have hsame : ∀ outcome, MemoryStep session statement heard outcome session := fun outcome =>
    .same outcome (fun kind hkind => absurd hkind (hwork kind)) hcommit
  cases abort with
  | crash | unplanned => exact hsame _
  | failed error =>
    unfold settle
    dsimp only
    cases htx : session.inTransaction with
    | true =>
      rw [Bool.or_true]
      have h : MemoryStep session statement heard _ _ := .marked error hwork htx
      rwa [htx] at h
    | false =>
      rw [Bool.or_false]
      have h := hsame (.failed error)
      cases session
      simp only at htx
      subst htx
      exact h

/-- In a transaction, or without writing. -/
theorem ends_executeJoined (work : Work) (analyze : Bool) (hheard : heard.commit = none)
    (htx : work.isWrite = true → session.inTransaction = true) :
    (session.executeJoined now work).Ends Heard.hear
      (fun o r => MemoryStep session (work.statement analyze) o r.1 r.2) heard := by
  refine (ends_executeWork now session.currentDb work analyze hheard).bind fun o r hr => ?_
  rcases hr.result with ⟨abort, rfl⟩ | ⟨reply, rfl, hsame | ⟨rfl, hwrite⟩⟩
  · exact memory_settle_error abort (work.not_control analyze) hr.unheard
  · rw [hsame]
    exact .same _ (fun kind hkind => absurd hkind (work.not_control analyze kind)) hr.unheard
  · exact .moved (work.not_control analyze) (Or.inl (htx hwrite))

theorem ends_executeAutoCommit (work : Work) (analyze : Bool) (hheard : heard.commit = none)
    (htx : session.inTransaction = false) :
    (session.executeAutoCommit now work).Ends Heard.hear
      (fun o r => MemoryStep session (work.statement analyze) o r.1 r.2) heard := by
  refine (ends_executeWork now session.currentDb work analyze hheard).bind fun o r hr => ?_
  have hcontrol := work.not_control analyze
  rcases hr.result with ⟨abort, rfl⟩ | ⟨reply, rfl, hreply⟩
  · intro status
    exact memory_settle_error abort hcontrol hr.unheard
  · refine ends_query fun status => ?_
    split_ifs with hok
    · intro _
      exact .movedInVain _ status hok hcontrol htx rfl
    · rcases hreply with hsame | ⟨rfl, -⟩
      · rw [hsame]
        exact .same _ (fun kind hkind => absurd hkind (hcontrol kind)) (Or.inr hsame)
      · exact .moved hcontrol (Or.inr (congrArg some (not_not.mp hok)))

theorem ends_executeQuery (work : Work) (analyze : Bool) (hheard : heard.commit = none) :
    (session.executeQuery now work).Ends Heard.hear
      (fun o r => MemoryStep session (work.statement analyze) o r.1 r.2) heard := by
  have hsame : ∀ outcome, MemoryStep session (work.statement analyze) heard outcome session :=
    fun outcome => .same outcome (fun kind hkind => absurd hkind (work.not_control analyze kind))
      (Or.inl hheard)
  unfold executeQuery
  split
  · rename_i hread
    exact ends_executeJoined work analyze hheard fun hwrite => by simp [hwrite] at hread
  · refine ends_query fun slot => ?_
    split_ifs with _ htx
    · exact hsame _
    · exact ends_executeJoined work analyze hheard fun _ => htx
    · have hbegin : autoBegin.Ends Heard.hear (fun o _ => o = heard) heard := by
        intro inside
        cases inside
        · exact fun _ => rfl
        · rfl
      refine hbegin.bind fun o began ho => ?_
      subst ho
      split
      · exact fun _ => hsame _
      · exact ends_executeAutoCommit work analyze hheard (by simpa using htx)

theorem ends_transaction (kind : TransactionKind) (analyze : Bool) :
    (session.transaction kind).Ends Heard.hear
      (fun o r => MemoryStep session (.parsed (.transaction kind) false analyze) o r.1 r.2) {} := by
  have hsame : ∀ outcome heard, heard.rollback = none →
      MemoryStep session (.parsed (.transaction kind) false analyze) heard outcome session :=
    fun outcome heard hnone => .same outcome (fun _ _ _ => hnone) (Or.inr rfl)
  cases kind with
  | begin =>
    show (session.beginTransaction).Ends _ _ _
    unfold beginTransaction
    split_ifs with htx
    · exact hsame _ _ rfl
    · refine ends_query fun status => ?_
      split_ifs
      · exact hsame _ _ rfl
      · exact .began ⟨analyze, rfl⟩ (by simpa using htx)
  | commit =>
    show (session.commitTransaction).Ends _ _ _
    unfold commitTransaction
    split_ifs with htx hgood
    · exact hsame _ _ rfl
    · intro status
      exact .abandoned _ ⟨analyze, rfl⟩ (by simpa using htx) hgood (Option.some_ne_none status)
    · refine ends_query fun status => ?_
      split_ifs
      · exact hsame _ _ rfl
      · exact .committed ⟨analyze, rfl⟩ (by simpa using htx) (by simpa using hgood)
  | rollback =>
    show (session.rollbackTransaction).Ends _ _ _
    unfold rollbackTransaction
    split_ifs with htx
    · exact hsame _ _ rfl
    · refine ends_query fun status => ?_
      split_ifs with hok
      · exact .rollbackFailed _ status hok ⟨analyze, rfl⟩ (by simpa using htx) rfl
      · exact .rolledBack ⟨analyze, rfl⟩ (by simpa using htx) (congrArg some (not_not.mp hok))

theorem ends_executePrepared (query : Query) (explain analyze : Bool) :
    (session.executePrepared now query explain analyze).Ends Heard.hear
      (fun o r => MemoryStep session (.parsed query explain analyze) o r.1 r.2) {} := by
  unfold executePrepared
  cases explain with
  | true =>
    refine ends_bind fun outcome o => .same _ ?_ (Or.inr ?_)
    · rintro kind ⟨_, h⟩
      cases h
    · unfold Statement.database
      split <;> simp_all
  | false =>
    rw [if_neg (by simp)]
    cases query with
    | transaction kind => exact ends_transaction kind analyze
    | dml query => exact ends_executeQuery (.dml query) analyze rfl
    | catalog query => exact ends_executeQuery (.catalog query) analyze rfl

theorem memory_early {statement : Statement} (outcome : Outcome) :
    MemoryStep session statement {} outcome session :=
  .same outcome (fun _ _ _ => rfl) (Or.inl rfl)

theorem ends_executeParsed (query : Query) (explain analyze : Bool) :
    (session.executeParsed now query explain analyze).Ends Heard.hear
      (fun o r => MemoryStep session (.parsed query explain analyze) o r.1 r.2) {} := by
  unfold executeParsed
  refine (unheard KVCatalog.looks_isOpen.points.works).ends_bind fun isOpen => ?_
  split
  · exact memory_early _
  · have hlooks := (Stmt.looks_validate session.currentDb query).adapt (f := fromStmtError)
    refine (unheard (Looks.points hlooks).works).ends_bind fun prepared => ?_
    cases prepared with
    | error error => exact memory_early _
    | ok _ =>
      dsimp only
      split
      · exact memory_early _
      · exact ends_executePrepared query explain analyze

/-- **Every statement**, whatever the engine answers, is a step of the memory. -/
theorem ends_execute (session : Session) (now : Int64) (statement : Statement) :
    (session.execute now statement).Ends Heard.hear
      (fun o r => MemoryStep session statement o r.1 r.2) {} := by
  unfold execute
  cases statement with
  | empty => exact memory_early _
  | unparsable | unbuildable =>
    refine (unheard KVCatalog.looks_isOpen.points.works).ends_bind fun isOpen => ?_
    split <;> exact memory_early _
  | parsed query explain analyze =>
    refine (unheard KVCatalog.looks_isOpen.points.works).ends_bind fun isOpen => ?_
    split
    · exact memory_early _
    · exact ends_executeParsed query explain analyze

end Parts

end SqlDb.Session
