/-
  STATEMENTS  (sql_types/query.h, sql_types/query_clause.h), and the catalog as the planner sees it
  (sql_types/catalog.h).
-/
import SqlDb.SqlTypes.Schema

namespace SqlDb.Sql

/-- A column in a SELECT list; an empty name, or `*`, is the wildcard.  The qualifier and the alias
    only name the result. -/
structure ColumnRef where
  column : Identifier
deriving DecidableEq

def ColumnRef.isWildcard (ref : ColumnRef) : Bool :=
  ref.column.name = [] || ref.column.lower = [byte '*']

inductive OrderDirection
  | asc | desc
deriving DecidableEq, Repr

structure OrderByItem where
  column : Identifier
  direction : OrderDirection := .asc
deriving DecidableEq

structure LimitClause where
  rowCount : Option Nat := none
  offset : Option Nat := none
deriving DecidableEq

structure SelectQuery where
  table : Identifier
  /-- No columns is `SELECT *`. -/
  columns : List ColumnRef := []
  where_ : Option Condition := none
  orderBy : List OrderByItem := []
  limit : LimitClause := {}
deriving DecidableEq

def SelectQuery.selectAll (select : SelectQuery) : Bool :=
  match select.columns with
  | [] => true
  | ref :: _ => ref.isWildcard

structure InsertQuery where
  table : Identifier
  /-- No columns is all of them. -/
  columns : List Identifier := []
  values : List (List Value)
deriving DecidableEq

structure Assignment where
  column : Identifier
  value : Value
deriving DecidableEq

structure UpdateQuery where
  table : Identifier
  assignments : List Assignment
  where_ : Option Condition := none
deriving DecidableEq

structure DeleteQuery where
  table : Identifier
  where_ : Option Condition := none
deriving DecidableEq

structure CreateTableQuery where
  /-- Without a name it is the database in use. -/
  database : Identifier := ⟨[], false⟩
  table : Identifier
  columns : List ColumnDef
deriving DecidableEq

structure DropTableQuery where
  database : Identifier := ⟨[], false⟩
  table : Identifier
deriving DecidableEq

inductive TransactionKind
  | begin | commit | rollback
deriving DecidableEq, Repr

def TransactionKind.toText : TransactionKind → Bytes
  | .begin => ascii "BEGIN"
  | .commit => ascii "COMMIT"
  | .rollback => ascii "ROLLBACK"

/-- Statements that have a plan. -/
inductive DmlQuery
  | select (query : SelectQuery)
  | insert (query : InsertQuery)
  | update (query : UpdateQuery)
  | delete (query : DeleteQuery)
deriving DecidableEq

namespace DmlQuery

def isSelect : DmlQuery → Bool
  | .select _ => true
  | _ => false

/-- `target_table`. -/
def table : DmlQuery → Identifier
  | .select query => query.table
  | .insert query => query.table
  | .update query => query.table
  | .delete query => query.table

end DmlQuery

/-- Statements that only the catalog carries out: DDL and USE. -/
inductive CatalogQuery
  | createDatabase (database : Identifier)
  | dropDatabase (database : Identifier)
  | createTable (query : CreateTableQuery)
  | dropTable (query : DropTableQuery)
  | useDatabase (database : Identifier)
deriving DecidableEq

inductive Query
  | dml (query : DmlQuery)
  | catalog (query : CatalogQuery)
  | transaction (kind : TransactionKind)
deriving DecidableEq

/-- What the planner asks the catalog. -/
structure Catalog where
  isOpen : Bool
  currentDatabase : Identifier
  getTableSchema : Identifier → Identifier → Option TableSchema

end SqlDb.Sql
