import BlockstreamStation.CText
import BlockstreamStation.LabelledRuns
import BlockstreamStation.Procedures

/-!
# The configuration table

`libs/database.cpp` keeps the configuration in the MySQL table `blockstreamst`:
`database_on_set` inserts a row of two numbers, `database_on_get` prints the
last row of the whole table, and `read_initial_configuration` of `main.cpp`
calls get, set and get at start-up.

The client library is a parameter, with what is assumed of the server in
`Lawful`: connecting and querying succeed, `Insert` appends a row and
`SELECT *` returns the rows in insertion order.  `databaseOnGet_eq` and
`databaseOnSet_eq` say what one call does; `get_after_set_iff` is about whole
runs of calls.  `last_row` is assigned in the fetch loop only, so a get on an
empty table uses a pointer that was never set.
-/

namespace Database

open CText Procedures Proc LabelledRuns

/-! ## The client library -/

/-- One entry of a fetched row; `none` is the null pointer of an SQL NULL. -/
abbrev Cell := Option Bytes

/-- A row of the table. -/
structure Row where
  first : Cell
  second : Cell
deriving DecidableEq

/-- What `mysql_store_result` gives: the column names and the rows. -/
structure ResultSet where
  columns : List Bytes
  rows : List Row

/-- The calls of the MySQL client library on a database: whether
`mysql_real_connect` succeeds, the text of `mysql_error`, and `mysql_query`,
`none` if it fails, with the result set it leaves if there is one. -/
structure Mysql (Db : Type) where
  connects : Db → Bool
  error : Db → Bytes
  query : Db → Bytes → Option (Db × Option ResultSet)

/-- The database and what the program has written to its two streams. -/
structure World (Db : Type) where
  db : Db
  stdout : Bytes
  stderr : Bytes

section Calls

variable {Db : Type} (mysql : Mysql Db)

/-- A procedure of the program; the exception is the status passed to `exit`,
which leaves every caller. -/
abbrev Procedure (Db α : Type) := Proc (World Db) Nat α

def printf (output : Bytes) : Procedure Db Unit :=
  modify fun w => { w with stdout := w.stdout ++ output }

def mysqlRealConnect : Procedure Db Unit := do
  if ← gets fun w => mysql.connects w.db then
    pure ()
  else
    let message ← gets fun w => mysql.error w.db
    modify fun w => { w with stderr := w.stderr ++ message ++ [newline] }
    throwing 1

/-- `mysql_query`: `none` if it fails. -/
def mysqlQuery (statement : Bytes) : Procedure Db (Option (Option ResultSet)) := do
  match ← gets fun w => mysql.query w.db statement with
  | none => pure none
  | some (db, result) =>
      modify fun w => { w with db := db }
      pure (some result)

/-! ## The two functions -/

def selectStatement : Bytes := text "SELECT * FROM `blockstreamst`"

/-- The loop over `mysql_fetch_row`: `last_row`, if it was set. -/
def fetchLoop : List Row → Option Row → Option Row
  | [], lastRow => lastRow
  | record :: rest, _ => fetchLoop rest (some record)

/-- `%s` of an entry. -/
def cellText (cell : Cell) : Bytes := cell.getD (text "(null)")

def rowLine (row : Row) : Bytes :=
  cellText row.first ++ text " " ++ cellText row.second ++ [newline]

def headerLine (columns : List Bytes) : Bytes :=
  (columns.map fun name => name ++ text " ").flatten ++ [newline]

def databaseOnGet : Procedure Db Unit := do
  mysqlRealConnect mysql
  match ← mysqlQuery mysql selectStatement with
  | none =>
      printf (text "Unable to query table blockstreamst\n")
      throwing 1
  | some none =>
      printf (text "Unable to compile SQL statement\n")
      throwing 1
  | some (some rs) =>
      printf (headerLine rs.columns)
      match fetchLoop rs.rows none with
      | none => undefined
      | some lastRow => printf (rowLine lastRow)

def insertStatement (temp humid : Int32) : Bytes :=
  text "Insert into `blockstreamst` values(" ++ decimal temp.toInt ++ text "," ++
    decimal humid.toInt ++ text ")"

/-- `cmd_query`: `snprintf` into 128 bytes. -/
def cmdQuery (temp humid : Int32) : Bytes := (insertStatement temp humid).take 127

def databaseOnSet (temp humid : Int32) : Procedure Db Unit := do
  mysqlRealConnect mysql
  match ← mysqlQuery mysql (cmdQuery temp humid) with
  | none =>
      printf (text "Unable to insert data into `blockstreamst` table\n")
      throwing 1
  | some _ => pure ()

def readInitialConfiguration : Procedure Db Unit := do
  databaseOnGet mysql
  databaseOnSet mysql 25 45
  databaseOnGet mysql

end Calls

/-! ## What is assumed of the server -/

/-- The row that `values(temp,humid)` makes. -/
def insertedRow (temp humid : Int32) : Row :=
  ⟨some (decimal temp.toInt), some (decimal humid.toInt)⟩

/-- Connecting and querying succeed on the table with these columns, `Insert`
appends a row and `SELECT *` returns the rows in insertion order. -/
structure Lawful {Db : Type} (mysql : Mysql Db) (columns : List Bytes)
    (rows : Db → List Row) : Prop where
  connects : ∀ db, mysql.connects db = true
  select : ∀ db, mysql.query db selectStatement = some (db, some ⟨columns, rows db⟩)
  insert : ∀ db temp humid, ∃ db', mysql.query db (insertStatement temp humid) = some (db', none) ∧
    rows db' = rows db ++ [insertedRow temp humid]

/-- A decimal `int` takes at most eleven characters. -/
theorem length_decimal_le (n : Int32) : (decimal n.toInt).length ≤ 11 := by
  have hlow := n.le_toInt
  have hhigh := n.toInt_lt
  have hdigits : (numeral 10 n.toInt.natAbs).length ≤ 10 :=
    (length_numeral_le_iff 10 10 _ (by decide) (by decide)).mpr (by omega)
  have hminus : (text "-").length = 1 := rfl
  unfold decimal
  split
  · rw [List.length_append, hminus]
    omega
  · omega

/-- The statement fits its buffer. -/
theorem cmdQuery_eq (temp humid : Int32) : cmdQuery temp humid = insertStatement temp humid := by
  have htemp := length_decimal_le temp
  have hhumid := length_decimal_le humid
  have hfront : (text "Insert into `blockstreamst` values(").length = 35 := rfl
  have hcomma : (text ",").length = 1 := rfl
  have hclose : (text ")").length = 1 := rfl
  apply List.take_of_length_le
  simp only [insertStatement, List.length_append, hfront, hcomma, hclose]
  omega

/-- The fetch loop ends at the last row. -/
theorem fetchLoop_eq (rows : List Row) (lastRow : Option Row) :
    fetchLoop rows lastRow = rows.getLast?.or lastRow := by
  induction rows generalizing lastRow with
  | nil => rfl
  | cons record rest ih =>
      rw [fetchLoop, ih, List.getLast?_cons]
      cases rest.getLast? <;> rfl

/-! ## One call -/

section Lawful

variable {Db : Type} {mysql : Mysql Db} {columns : List Bytes} {rows : Db → List Row}
  (hlawful : Lawful mysql columns rows)

include hlawful in

/-- The connection is made. -/
theorem mysqlRealConnect_eq (w : World Db) :
    mysqlRealConnect mysql w = (.returns (), w) := by
  simp [mysqlRealConnect, bind_apply, hlawful.connects]

include hlawful in
/-- A get prints the last row behind the column names; without a last row it is
undefined. -/
theorem databaseOnGet_eq (w : World Db) :
    databaseOnGet mysql w =
      match (rows w.db).getLast? with
      | none => (.undefined, { w with stdout := w.stdout ++ headerLine columns })
      | some row =>
          (.returns (), { w with stdout := w.stdout ++ headerLine columns ++ rowLine row }) := by
  have hquery : mysqlQuery mysql selectStatement w =
      (.returns (some (some ⟨columns, rows w.db⟩)), w) := by
    simp [mysqlQuery, bind_apply, hlawful.select]
  have hloop : fetchLoop (rows w.db) none = (rows w.db).getLast? := by
    rw [fetchLoop_eq, Option.or_none]
  rw [databaseOnGet, bind_of_returns (mysqlRealConnect_eq hlawful w), bind_of_returns hquery]
  simp only [hloop]
  cases (rows w.db).getLast? <;> rfl

include hlawful in
/-- A set appends its row and prints nothing. -/
theorem databaseOnSet_eq (temp humid : Int32) (w : World Db) :
    ∃ db', databaseOnSet mysql temp humid w = (.returns (), { w with db := db' }) ∧
      rows db' = rows w.db ++ [insertedRow temp humid] := by
  obtain ⟨db', hinsert, hrows⟩ := hlawful.insert w.db temp humid
  have hquery : mysqlQuery mysql (insertStatement temp humid) w =
      (.returns (some none), { w with db := db' }) := by
    simp [mysqlQuery, bind_apply, hinsert]
  refine ⟨db', ?_, hrows⟩
  rw [databaseOnSet, bind_of_returns (mysqlRealConnect_eq hlawful w), cmdQuery_eq,
    bind_of_returns hquery]
  rfl

include hlawful in

/-- `database_on_get` returns exactly if the table has a row. -/
theorem databaseOnGet_completes (w : World Db) :
    Completes (databaseOnGet mysql) w ↔ rows w.db ≠ [] := by
  rw [Completes, databaseOnGet_eq hlawful, Ne, ← List.getLast?_eq_none_iff]
  cases (rows w.db).getLast? <;> simp

include hlawful in
/-- Start-up completes exactly when the table has a row to begin with. -/
theorem readInitialConfiguration_completes (w : World Db) :
    Completes (readInitialConfiguration mysql) w ↔ rows w.db ≠ [] := by
  rw [readInitialConfiguration, completes_bind]
  constructor
  · intro hparts
    obtain ⟨_, w', hget, -⟩ := hparts
    exact (databaseOnGet_completes hlawful w).mp ⟨_, w', hget⟩
  · intro hne
    obtain ⟨_, w', hget⟩ := (databaseOnGet_completes hlawful w).mpr hne
    obtain ⟨db', hset, hrows⟩ := databaseOnSet_eq hlawful 25 45 w'
    refine ⟨_, w', hget, completes_bind.mpr ⟨_, _, hset, ?_⟩⟩
    apply (databaseOnGet_completes hlawful _).mpr
    simp [hrows]

end Lawful

/-! ## Runs of calls -/

/-- A call of one of the two functions. -/
inductive Call where
  | get
  | set (temp humid : Int32)
deriving DecidableEq

/-- The row a call inserts. -/
def Call.inserted : Call → Option Row
  | .get => none
  | .set temp humid => some (insertedRow temp humid)

/-- The pair of the most recent set among the calls, or else the last row of the
table before them. -/
def mostRecent (table : List Row) (calls : List Call) : Option Row :=
  (calls.filterMap Call.inserted).getLast?.or table.getLast?

/-- What a get prints: the column names, and the row if there is one. -/
def report (columns : List Bytes) : Option Row → Bytes
  | none => headerLine columns
  | some row => headerLine columns ++ rowLine row

section Runs

variable {Db : Type} (mysql : Mysql Db)

/-- A call as a step of the program, taken when the call returns. -/
def step (w : World Db) (call : Call) : Option (World Db) :=
  match (match call with
    | .get => databaseOnGet mysql
    | .set temp humid => databaseOnSet mysql temp humid) w with
  | (.returns (), w') => some w'
  | _ => none

/-- Every get of a run returns, as do all calls before it, and prints the pair of
the most recent set, or else the last row of the initial table, if any. -/
def GetAfterSet (columns : List Bytes) (rows : Db → List Row) (w : World Db)
    (calls : List Call) : Prop :=
  ∀ front back, calls = front ++ .get :: back →
    ∃ before after, exec (step mysql) w front = some before ∧
      step mysql before .get = some after ∧
      after.stdout = before.stdout ++ report columns (mostRecent (rows w.db) front)

variable {mysql} {columns : List Bytes} {rows : Db → List Row}
  (hlawful : Lawful mysql columns rows)

include hlawful in

/-- It prints the last row. -/
theorem step_get {w : World Db} {row : Row} (h : (rows w.db).getLast? = some row) :
    step mysql w .get =
      some { w with stdout := w.stdout ++ headerLine columns ++ rowLine row } := by
  simp [step, databaseOnGet_eq hlawful, h]

include hlawful in

/-- Without a row it does not return. -/
theorem step_get_empty {w : World Db} (h : rows w.db = []) : step mysql w .get = none := by
  simp [step, databaseOnGet_eq hlawful, h]

include hlawful in

/-- `database_on_set` appends its row. -/
theorem step_set (w : World Db) (temp humid : Int32) :
    ∃ w', step mysql w (.set temp humid) = some w' ∧
      rows w'.db = rows w.db ++ [insertedRow temp humid] := by
  obtain ⟨db', hset, hrows⟩ := databaseOnSet_eq hlawful temp humid w
  exact ⟨{ w with db := db' }, by simp [step, hset], hrows⟩

include hlawful in
/-- From a table with a row every run completes, and the table holds the rows it
held and those inserted. -/
theorem exec_of_nonempty (calls : List Call) :
    ∀ w : World Db, rows w.db ≠ [] →
      ∃ w', exec (step mysql) w calls = some w' ∧
        rows w'.db = rows w.db ++ calls.filterMap Call.inserted := by
  induction calls with
  | nil =>
      intro w _
      exact ⟨w, rfl, by simp⟩
  | cons call rest ih =>
      intro w hne
      cases call with
      | get =>
          have hstep := step_get hlawful (List.getLast?_eq_some_getLast hne)
          obtain ⟨w', hexec, hrows⟩ := ih
            { w with stdout := w.stdout ++ headerLine columns ++ rowLine ((rows w.db).getLast hne) }
            hne
          exact ⟨w', by rw [exec_cons_of_step hstep, hexec], hrows⟩
      | set temp humid =>
          obtain ⟨w₁, hstep, hinserted⟩ := step_set hlawful w temp humid
          obtain ⟨w', hexec, hrows⟩ := ih w₁ (by simp [hinserted])
          refine ⟨w', by rw [exec_cons_of_step hstep, hexec], ?_⟩
          rw [hrows, hinserted]
          simp [Call.inserted]

include hlawful in
/-- The same from any table, when the run does not begin with a get on an empty
one. -/
theorem exec_completes {w : World Db} {calls : List Call}
    (h : rows w.db ≠ [] ∨ calls.head? ≠ some .get) :
    ∃ w', exec (step mysql) w calls = some w' ∧
      rows w'.db = rows w.db ++ calls.filterMap Call.inserted := by
  by_cases hne : rows w.db = []
  · match calls with
    | [] => exact ⟨w, rfl, by simp⟩
    | .get :: rest => exact absurd hne (h.resolve_right (by simp))
    | .set temp humid :: rest =>
        obtain ⟨w₁, hstep, hinserted⟩ := step_set hlawful w temp humid
        obtain ⟨w', hexec, hrows⟩ := exec_of_nonempty hlawful rest w₁ (by simp [hinserted])
        refine ⟨w', by rw [exec_cons_of_step hstep, hexec], ?_⟩
        rw [hrows, hinserted]
        simp [Call.inserted]
  · exact exec_of_nonempty hlawful calls w hne

end Runs

/-- Before a get that is not the first call on an empty table, the table has a
row. -/
theorem rows_before_get {table : List Row} {calls front back : List Call}
    (h : table ≠ [] ∨ calls.head? ≠ some .get) (hsplit : calls = front ++ .get :: back) :
    (table ≠ [] ∨ front.head? ≠ some .get) ∧ table ++ front.filterMap Call.inserted ≠ [] := by
  subst hsplit
  rcases h with hne | hhead
  · exact ⟨.inl hne, fun hempty => hne (List.append_eq_nil_iff.mp hempty).1⟩
  · match front, hhead with
    | [], hhead => exact absurd rfl hhead
    | .get :: rest, hhead => exact absurd rfl hhead
    | .set temp humid :: rest, _ => exact ⟨.inr (by simp), by simp [Call.inserted]⟩

/-- **Get after set, exactly.**  On a lawful server, every get of a run reports
the most recent pair if and only if the table has a row or the run does not begin
with a get. -/
theorem get_after_set_iff {Db : Type} {mysql : Mysql Db} {columns : List Bytes}
    {rows : Db → List Row} (hlawful : Lawful mysql columns rows) (w : World Db)
    (calls : List Call) :
    GetAfterSet mysql columns rows w calls ↔ rows w.db ≠ [] ∨ calls.head? ≠ some .get := by
  constructor
  · intro hafter
    by_contra hnot
    obtain ⟨hempty, hhead⟩ := not_or.mp hnot
    rw [not_not] at hempty hhead
    obtain ⟨rest, rfl⟩ : ∃ rest, calls = .get :: rest := by
      cases calls with
      | nil => cases hhead
      | cons call rest =>
          obtain rfl := Option.some.inj hhead
          exact ⟨rest, rfl⟩
    obtain ⟨before, after, hexec, hget, -⟩ := hafter [] rest rfl
    obtain rfl := Option.some.inj hexec
    rw [step_get_empty hlawful hempty] at hget
    cases hget
  · intro h front back hsplit
    obtain ⟨hfront, hsome⟩ := rows_before_get h hsplit
    obtain ⟨before, hexec, hrows⟩ := exec_completes hlawful hfront
    rw [← hrows] at hsome
    have hlast : (rows before.db).getLast? = mostRecent (rows w.db) front := by
      rw [hrows, List.getLast?_append, mostRecent]
    obtain ⟨row, hrow⟩ := Option.ne_none_iff_exists'.mp
      (fun hnone => hsome (List.getLast?_eq_none_iff.mp hnone))
    refine ⟨before, _, hexec, step_get hlawful hrow, ?_⟩
    rw [← hlast, hrow]
    simp [report]

/-! ## A server -/

/-- The two numbers between the brackets of an `Insert` statement, as texts. -/
def insertedTexts (statement : Bytes) : Row :=
  let values := statement.drop 35
  ⟨some (values.takeWhile (· != 44)),
    some (((values.dropWhile (· != 44)).drop 1).takeWhile (· != 41))⟩

/-- A server that keeps the table as a list of rows. -/
def listServer : Mysql (List Row) where
  connects _ := true
  error _ := []
  query table statement :=
    if statement = selectStatement then
      some (table, some ⟨[text "temp", text "humid"], table⟩)
    else
      some (table ++ [insertedTexts statement], none)

/-- A decimal number has digits and perhaps a minus sign. -/
theorem mem_decimal {n : Int} {b : UInt8} (h : b ∈ decimal n) : b = 45 ∨ 48 ≤ b := by
  have hnumeral : ∀ m : Nat, b ∈ numeral 10 m → 48 ≤ b := by
    intro m hb
    unfold numeral at hb
    split at hb
    · rw [List.mem_singleton] at hb
      rw [hb]
      decide
    · obtain ⟨d, hd, rfl⟩ := List.mem_map.mp (List.mem_reverse.mp hb)
      have hlt : d < 10 := Nat.digits_lt_base (by decide) hd
      interval_cases d <;> decide
  unfold decimal at h
  split at h
  · rcases List.mem_append.mp h with hminus | hb
    · exact .inl (List.mem_singleton.mp hminus)
    · exact .inr (hnumeral _ hb)
  · exact .inr (hnumeral _ h)

/-- A number ends at a comma or a bracket. -/
theorem takeWhile_decimal (n : Int) {stop : UInt8} (hstop : stop = 44 ∨ stop = 41)
    (rest : Bytes) :
    (decimal n ++ stop :: rest).takeWhile (· != stop) = decimal n ∧
      (decimal n ++ stop :: rest).dropWhile (· != stop) = stop :: rest := by
  have hne : ∀ b ∈ decimal n, (b != stop) = true := by
    intro b hb
    have hlow := mem_decimal hb
    rw [bne_iff_ne]
    intro heq
    subst heq
    rcases hstop with rfl | rfl
    · exact absurd hlow (by decide)
    · exact absurd hlow (by decide)
  constructor
  · rw [List.takeWhile_append_of_pos hne, List.takeWhile_cons_of_neg (by simp), List.append_nil]
  · rw [List.dropWhile_append_of_pos hne, List.dropWhile_cons_of_neg (by simp)]

/-- The texts in the statement are those of the row. -/
theorem insertedTexts_insertStatement (temp humid : Int32) :
    insertedTexts (insertStatement temp humid) = insertedRow temp humid := by
  have hdrop : (insertStatement temp humid).drop 35 =
      decimal temp.toInt ++ 44 :: (decimal humid.toInt ++ 41 :: []) := by
    have hfront : (text "Insert into `blockstreamst` values(").length = 35 := rfl
    rw [insertStatement, ← hfront, List.append_assoc, List.append_assoc, List.append_assoc,
      List.drop_left]
    rfl
  obtain ⟨htemp, hrest⟩ :=
    takeWhile_decimal temp.toInt (.inl rfl) (decimal humid.toInt ++ 41 :: [])
  obtain ⟨hhumid, -⟩ := takeWhile_decimal humid.toInt (.inr rfl) []
  rw [insertedTexts, hdrop, htemp, hrest]
  simp only [List.drop_succ_cons, List.drop_zero]
  rw [hhumid, insertedRow]

/-- A server that is a list keeps the laws. -/
theorem listServer_lawful :
    Lawful listServer [text "temp", text "humid"] (fun table => table) where
  connects _ := rfl
  select table := by simp [listServer]
  insert table temp humid := by
    have hne : insertStatement temp humid ≠ selectStatement := by
      intro h
      have hhead := congrArg List.head? h
      revert hhead
      simp [insertStatement, selectStatement, text]
    refine ⟨table ++ [insertedRow temp humid], ?_, rfl⟩
    simp [listServer, hne, insertedTexts_insertStatement]

/-- Start-up on a table of one row: every get reports, the second one the pair
that was set. -/
theorem get_after_set_start_up :
    let w : World (List Row) := ⟨[⟨some (text "20"), some (text "40")⟩], [], []⟩
    Lawful listServer [text "temp", text "humid"] (fun table => table) ∧
    (GetAfterSet listServer [text "temp", text "humid"] (fun table => table) w
        [.get, .set 25 45, .get] ↔
      w.db ≠ [] ∨ [Call.get, .set 25 45, .get].head? ≠ some .get) ∧
    (readInitialConfiguration listServer w).2.stdout =
      text "temp humid \n20 40\ntemp humid \n25 45\n" := by
  intro w
  exact ⟨listServer_lawful, get_after_set_iff listServer_lawful w _, by decide⟩

/-- Start-up on a fresh table uses a row that was never fetched. -/
theorem start_up_on_empty_table :
    Lawful listServer [text "temp", text "humid"] (fun table => table) ∧
      ¬ GetAfterSet listServer [text "temp", text "humid"] (fun table => table)
        ⟨[], [], []⟩ [.get, .set 25 45, .get] := by
  refine ⟨listServer_lawful, fun hafter => ?_⟩
  obtain ⟨before, after, hexec, hget, -⟩ := hafter [] [.set 25 45, .get] rfl
  obtain rfl := Option.some.inj hexec
  rw [step_get_empty listServer_lawful rfl] at hget
  cases hget

end Database
