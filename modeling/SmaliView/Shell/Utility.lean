import SmaliView.Shell.Lexeme
import SmaliView.Shell.State
import SmaliView.Text.Digits

/-!
# Utilities

The small programs that scripts are made of. A utility writes to its streams, may change the files,
and ends with a status.
-/

namespace SmaliView.Shell

open SmaliView.Text (Bytes bytes)

/-! ## Escapes -/

def octal? (c : Char) : Option Nat :=
  if '0' ≤ c ∧ c ≤ '7' then some (Text.digitValue c) else none

/-- A number of at most `n` octal digits, with the rest. -/
def octalAt (n : Nat) (cs : List Char) : Nat × List Char :=
  let digits := (cs.take n).takeWhile fun c => (octal? c).isSome
  (digits.foldl (fun v c => v * 8 + (octal? c).getD 0) 0, cs.drop digits.length)

/-- The character that a letter stands for after a backslash. -/
def escape? : Char → Option UInt8
  | 'a' => some 7
  | 'b' => some 8
  | 'f' => some 12
  | 'n' => some 10
  | 'r' => some 13
  | 't' => some 9
  | 'v' => some 11
  | '\\' => some 92
  | _ => none

def charBytes (c : Char) : Bytes := bytes (String.singleton c)

/-- The text that `echo` writes, and whether a line end follows. -/
def echoText : Nat → List Char → Bytes → Bytes × Bool
  | 0, _, acc => (acc, true)
  | _ + 1, [], acc => (acc, true)
  | n + 1, '\\' :: 'c' :: _, acc => let _ := n; (acc, false)
  | n + 1, '\\' :: '0' :: cs, acc =>
    match octalAt 3 cs with
    | (v, rest) => echoText n rest (acc ++ [v.toUInt8])
  | n + 1, '\\' :: c :: cs, acc =>
    match escape? c with
    | some b => echoText n cs (acc ++ [b])
    | none => echoText n (c :: cs) (acc ++ charBytes '\\')
  | n + 1, c :: cs, acc => echoText n cs (acc ++ charBytes c)

/-- The text that `printf` writes, and the arguments that are left. -/
def printfText : Nat → List Char → List String → Bytes → Bytes × List String
  | 0, _, args, acc => (acc, args)
  | _ + 1, [], args, acc => (acc, args)
  | n + 1, '\\' :: c :: cs, args, acc =>
    match octal? c with
    | some _ =>
      match octalAt 3 (c :: cs) with
      | (v, rest) => printfText n rest args (acc ++ [v.toUInt8])
    | none =>
      match escape? c with
      | some b => printfText n cs args (acc ++ [b])
      | none => printfText n cs args (acc ++ charBytes '\\' ++ charBytes c)
  | n + 1, '%' :: '%' :: cs, args, acc => printfText n cs args (acc ++ charBytes '%')
  | n + 1, '%' :: 's' :: cs, args, acc =>
    printfText n cs args.tail (acc ++ bytes (args.head?.getD ""))
  | n + 1, '%' :: 'd' :: cs, args, acc =>
    printfText n cs args.tail (acc ++ bytes (args.head?.getD "0"))
  | n + 1, c :: cs, args, acc => printfText n cs args (acc ++ charBytes c)

/-- Write a format as often as it takes to use up the arguments. -/
def printfAll : Nat → List Char → List String → Bytes → Bytes
  | 0, _, _, acc => acc
  | n + 1, format, args, acc =>
    match printfText (format.length + 1) format args acc with
    | (acc, rest) =>
      -- A format that takes no argument would go on forever.
      if rest.isEmpty || rest.length == args.length then acc else printfAll n format rest acc

/-! ## Tests -/

/-- A whole number with or without sign. -/
def integer? (s : String) : Option Int :=
  match s.toList with
  | '-' :: ds => (String.ofList ds).toNat?.map fun n => -(n : Int)
  | '+' :: ds => (String.ofList ds).toNat?.map fun n => (n : Int)
  | _ => s.toNat?.map fun n => (n : Int)

def compares? : String → Option (Int → Int → Bool)
  | "-eq" => some (· == ·)
  | "-ne" => some (· != ·)
  | "-gt" => some (· > ·)
  | "-ge" => some (· ≥ ·)
  | "-lt" => some (· < ·)
  | "-le" => some (· ≤ ·)
  | _ => none

/-- Evaluate a test; nothing for one that makes no sense. -/
def test (tree : FileTree) : List String → Option Bool
  | [] => some false
  | [s] => some (!s.isEmpty)
  | ["!", s] => some s.isEmpty
  | ["-n", s] => some (!s.isEmpty)
  | ["-z", s] => some s.isEmpty
  | ["-e", p] => some (tree.contains ⟨p⟩)
  | ["-f", p] => some (tree.isFile ⟨p⟩)
  | ["-d", p] => some (tree.isDirectory ⟨p⟩)
  | ["-s", p] => some ((tree.fileInfo? ⟨p⟩).any (·.length > 0))
  | ["-x", p] => some ((tree.info ⟨p⟩).toOption.any (·.executable))
  | ["-r", p] => some (tree.contains ⟨p⟩)
  | [a, "=", b] => some (a == b)
  | [a, "!=", b] => some (a != b)
  | "!" :: rest => (test tree rest).map (!·)
  | [a, op, b] => do return (← compares? op) (← integer? a) (← integer? b)
  | _ => none

/-! ## Files -/

/-- The text of an error without its number. -/
def describe : SystemError → String
  | .code n => SystemError.describe n
  | .invalid reason => reason

/-- Change the files; complain if that is refused. -/
def change (io : Streams) (complaint : SystemError → String)
    (f : FileTree → Except SystemError FileTree) : Action Bool := do
  match f (← get).tree with
  | .ok tree =>
    modify ({ · with tree })
    return true
  | .error e =>
    writeLine io.err (complaint e)
    return false

/-- Do something for each item; the status says whether all went well. -/
def forAll {α : Type} (items : List α) (f : α → Action Bool) : Action Nat := do
  let results ← items.mapM f
  return if results.all id then 0 else 1

/-- The arguments that are no options. -/
def operands (args : List String) : List String :=
  args.filter fun a => !("-".isPrefixOf a && a != "-")

/-- Whether a letter is among the options. -/
def hasOption (args : List String) (letter : Char) : Bool :=
  -- Letters behind one dash may stand together.
  args.any fun a => "-".isPrefixOf a && !"--".isPrefixOf a && letter ∈ a.toList

/-- A path and a text in quotes, as complaints have it. -/
def about (action path : String) (e : SystemError) : String :=
  action ++ " '" ++ path ++ "': " ++ describe e

def cat (io : Streams) (args : List String) : Action Nat := do
  let paths := if args.isEmpty then ["-"] else args
  forAll paths fun p => do
    if p == "-" then
      write io.out io.input
      return true
    match (← get).tree.read ⟨p⟩ with
    | .ok content =>
      write io.out content
      return true
    | .error e =>
      writeLine io.err ("cat: " ++ p ++ ": " ++ describe e)
      return false

def copyTo (io : Streams) (source target : String) : Action Bool := do
  let tree := (← get).tree
  let path : Path :=
    if tree.isDirectory ⟨target⟩ then
      Path.mk target / (Path.fileName? ⟨source⟩).getD ""
    else ⟨target⟩
  match tree.find ⟨source⟩ with
  | .error e =>
    writeLine io.err (about "cp: cannot stat" source e)
    return false
  | .ok .directory =>
    writeLine io.err ("cp: -r not specified; omitting directory '" ++ source ++ "'")
    return false
  | .ok _ => change io (about "cp: cannot create regular file" path.text) (·.copy ⟨source⟩ path)

def cp (io : Streams) (args : List String) : Action Nat := do
  match (operands args).reverse with
  | target :: source :: more => forAll (source :: more).reverse fun s => copyTo io s target
  | [source] =>
    writeLine io.err ("cp: missing destination file operand after '" ++ source ++ "'")
    return 1
  | [] =>
    writeLine io.err "cp: missing file operand"
    return 1

def mkdir (io : Streams) (args : List String) : Action Nat :=
  let make := if hasOption args 'p' then FileTree.makeDirectories else FileTree.makeDirectory
  forAll (operands args) fun p => change io (about "mkdir: cannot create directory" p) (make · ⟨p⟩)

def touch (io : Streams) (args : List String) : Action Nat :=
  forAll (operands args) fun p => change io (about "touch: cannot touch" p) fun tree =>
    if tree.contains ⟨p⟩ then .ok tree else tree.write ⟨p⟩ []

/-- Remove files, or all below directories. -/
def rm (io : Streams) (args : List String) : Action Nat :=
  let force := hasOption args 'f'
  forAll (operands args) fun p => do
    if hasOption args 'r' && (← get).tree.contains ⟨p⟩ then
      modify fun s => { s with tree := s.tree.removeTree ⟨p⟩ }
      return true
    if force && !(← get).tree.contains ⟨p⟩ then return true
    change io (about "rm: cannot remove" p) (·.removeFile ⟨p⟩)

def milliseconds (s : String) : Nat :=
  match s.splitOn "." with
  | [whole, fraction] =>
    let digits := fraction.toList.take 3
    whole.toNat?.getD 0 * 1000 + Text.decimalValue digits * Nat.pow 10 (3 - digits.length)
  | _ => s.toNat?.getD 0 * 1000

/-! ## All utilities -/

def utilities : List String :=
  ["true", "false", "echo", "printf", "[", "test", "cat", "cp", "mkdir", "touch", "rm", "sleep"]

def runUtility (io : Streams) (name : String) (args : List String) : Action (Flow × Nat) := do
  let ended (n : Nat) : Flow × Nat := (.next, n)
  let verdict (r : Option Bool) : Flow × Nat := (.next, match r with
    | some true => 0
    | some false => 1
    | none => 2)
  match name with
  | "true" => return ended 0
  | "false" => return ended 1
  | "echo" =>
    let (plain, args) := if args.head? = some "-n" then (true, args.tail) else (false, args)
    let line := (" ".intercalate args).toList
    let (text, more) := echoText (line.length + 1) line []
    write io.out (if more && !plain then text ++ [10] else text)
    return ended 0
  | "printf" =>
    match args with
    | format :: rest =>
      write io.out (printfAll (rest.length + 1) format.toList rest [])
      return ended 0
    | [] => return ended 2
  | "test" => return verdict (test (← get).tree args)
  | "[" =>
    if args.getLast? = some "]" then return verdict (test (← get).tree args.dropLast)
    else return ended 2
  | "cat" => ended <$> cat io args
  | "cp" => ended <$> cp io args
  | "mkdir" => ended <$> mkdir io args
  | "touch" => ended <$> touch io args
  | "rm" => ended <$> rm io args
  | "sleep" =>
    let time := args.foldl (fun total arg => total + milliseconds arg) 0
    if ← pass time then return ended 0 else return (.killed, 0)
  | _ => return ended 127

end SmaliView.Shell
