import EfficiencyLedger.Model.Queries

/-!
# The command line tool

`el_cli.cpp`: it loads a ledger file, prints what the command asks for, and never writes to the file.
-/

namespace El

/-- How a process ends, and what it has written to its two streams. -/
inductive Outcome where
  | exited (code : Nat) (out err : String)
  /-- An exception that nothing catches. -/
  | aborted (out err : String)
  deriving DecidableEq

/-- `std::to_string`, and the conversions `%llu` and `%zu`. -/
def decimal (v : UInt64) : String := toString v.toNat

/-- A field of at least this width, filled up with blanks on the left. -/
def padLeft (width : Nat) (text : String) : String :=
  String.ofList (List.replicate (width - text.length) ' ') ++ text

/-- A field of at least this width, filled up with blanks on the right. -/
def padRight (width : Nat) (text : String) : String :=
  text ++ String.ofList (List.replicate (width - text.length) ' ')

namespace Cli

/-- The dimension that the listings show. -/
def shownDimension : Dimension := ⟨0, by decide⟩

def dimName (d : Dimension) : String := dimensionNames.getD d ""

/-- `isspace` in the standard locale. -/
def isSpace (c : Char) : Bool := c.toNat = 32 ∨ 9 ≤ c.toNat ∧ c.toNat ≤ 13

/-- `std::stoull`: blanks, a sign, digits, and then anything. Without a digit and out of range it throws. -/
def stoull (text : String) : Option UInt64 :=
  let rest := text.toList.dropWhile isSpace
  let (negative, rest) :=
    match rest with
    | '-' :: rest => (true, rest)
    | '+' :: rest => (false, rest)
    | rest => (false, rest)
  let digits := rest.takeWhile Char.isDigit
  let value := digits.foldl (fun n c => 10 * n + (c.toNat - 48)) 0
  if digits = [] ∨ CheckedU64.u64Limit ≤ value then none
  else if negative then some (0 - UInt64.ofNat value)
  else some (UInt64.ofNat value)

/-! ### Listings -/

def summaryHeader : String :=
  "account   physical   useful   overhead    waste   unknown   avoided  stranded\n"

def summaryLine (s : AccountSummary) : String :=
  let d := shownDimension
  padRight 9 (decimal s.account.value) ++ " " ++ padLeft 9 (decimal (s.physical d)) ++ " " ++
    padLeft 8 (decimal (s.useful d)) ++ " " ++ padLeft 9 (decimal (s.overhead d)) ++ " " ++
    padLeft 8 (decimal (s.waste d)) ++ " " ++ padLeft 8 (decimal (s.unknown d)) ++ " " ++
    padLeft 8 (decimal (s.avoided d)) ++ " " ++ padLeft 8 (decimal (s.stranded d)) ++ "\n"

def printSummary (sums : List AccountSummary) : String :=
  summaryHeader ++ String.join (sums.map summaryLine)

def className : EfficiencyClass → String
  | .kUseful => "USEFUL"
  | .kNecessaryOverhead => "NECESSARY_OVERHEAD"
  | .kAvoidableWaste => "AVOIDABLE_WASTE"
  | .kAvoidedWork => "AVOIDED_WORK"
  | .kStrandedCapacity => "STRANDED_CAPACITY"
  | .kUnknown => "UNKNOWN"

/-- The totals that `print_class` reads. -/
def classTotals (agg : AccountAggregate) : EfficiencyClass → DimTotals
  | .kUseful => agg.useful
  | .kNecessaryOverhead => agg.overhead
  | .kAvoidableWaste => agg.waste
  | .kAvoidedWork => agg.avoided
  | .kStrandedCapacity => agg.stranded
  | .kUnknown => agg.unknown

def printClass (sums : List AccountSummary) (cls : EfficiencyClass) : String :=
  String.join (sums.map fun s =>
    let val := classTotals s.toAccountAggregate cls shownDimension
    if val ≠ 0 then
      "account " ++ decimal s.account.value ++ ": " ++ className cls ++ " = " ++ decimal val ++ "\n"
    else "")

/-- The lines of `show-account`, one for each dimension with anything in it. -/
def printAccount (s : AccountSummary) : String :=
  String.join ((List.finRange kDimensionCount).map fun d =>
    if s.physical d ≠ 0 ∨ s.useful d ≠ 0 ∨ s.overhead d ≠ 0 ∨ s.waste d ≠ 0 ∨ s.unknown d ≠ 0 ∨
        s.avoided d ≠ 0 ∨ s.stranded d ≠ 0 then
      padRight 32 (dimName d) ++ " physical=" ++ decimal (s.physical d) ++
        " useful=" ++ decimal (s.useful d) ++ " overhead=" ++ decimal (s.overhead d) ++
        " waste=" ++ decimal (s.waste d) ++ " unknown=" ++ decimal (s.unknown d) ++
        " avoided=" ++ decimal (s.avoided d) ++ " stranded=" ++ decimal (s.stranded d) ++ "\n"
    else "")

/-! ### The process -/

def usage : String :=
  "usage: el <command> <ledger-file> [account]\n" ++
    "commands: summary, show-account, show-waste, show-useful, show-overhead, " ++
    "show-avoided, show-stranded, reconcile, validate-state, replay, digest\n"

def printDigest (led : EfficiencyLedger) : String :=
  "digest: " ++ digestHex led.digest ++ "\nentry_count: " ++ toString led.entryCount ++ "\n"

def printReconcile (r : Reconciliation) : String :=
  "closed: " ++ (if r.closed then "yes" else "no") ++ "\n" ++
    String.join (r.messages.map fun m => "  " ++ m ++ "\n")

def printValidateState (r : Reconciliation) : String :=
  "validate-state: " ++ (if r.closed then "OK" else "FAILED") ++ "\n"

section Main

variable (ord : IterationOrder) (iter : ∀ accounts, Enumeration accounts)

/-- The history is replayed into a ledger of its own. -/
def printReplay (led : EfficiencyLedger) : String :=
  let result := loadHistory ord led.history (.fresh kDefaultLedgerId)
  let text :=
    match result with
    | .ok _ _ => "OK"
    | .error st _ => st.message
  "replay: " ++ text ++ "\ndigest-match: " ++
    (if result.state.digest = led.digest then "yes" else "no") ++ "\n"

/-- The chain of commands. -/
def dispatch (cmd : String) (rest : List String) (led : EfficiencyLedger) : Outcome :=
  let sums := led.accountSummaries (iter led.accounts)
  if cmd = "summary" then .exited 0 (printSummary sums) ""
  else if cmd = "digest" then .exited 0 (printDigest led) ""
  else if cmd = "reconcile" then .exited 0 (printReconcile (reconcile led (iter led.accounts))) ""
  else if cmd = "validate-state" then
    .exited 0 (printValidateState (reconcile led (iter led.accounts))) ""
  else if cmd = "replay" then .exited 0 (printReplay ord led) ""
  else if cmd = "show-account" then
    match rest with
    | [] => .exited 2 "" "show-account requires an account id\n"
    | text :: _ =>
      match stoull text with
      | none => .aborted "" ""
      | some v => .exited 0 (printAccount (led.summary ⟨v⟩)) ""
  else if cmd = "show-waste" then .exited 0 (printClass sums .kAvoidableWaste) ""
  else if cmd = "show-useful" then .exited 0 (printClass sums .kUseful) ""
  else if cmd = "show-overhead" then .exited 0 (printClass sums .kNecessaryOverhead) ""
  else if cmd = "show-avoided" then .exited 0 (printClass sums .kAvoidedWork) ""
  else if cmd = "show-stranded" then .exited 0 (printClass sums .kStrandedCapacity) ""
  else .exited 2 "" ("unknown command: " ++ cmd ++ "\n")

/-- The process with the arguments after its own name, over a path that holds `file`, if anything. -/
def main (args : List String) (file : Option Bytes) : Outcome :=
  match args with
  | cmd :: _ :: rest =>
    match load ord file (.fresh kDefaultLedgerId) with
    | .error st _ => .exited 1 "" ("load failed: " ++ st.message ++ "\n")
    | .ok _ led => dispatch ord iter cmd rest led
  | _ => .exited 2 "" usage

end Main

end Cli

end El
