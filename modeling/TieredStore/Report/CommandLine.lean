import TieredStore.Report.Command

/-!
# The command line

The first word that is no option names the report.  Its options may stand
before and after the directory, long ones with two hyphens and short ones with
one; the value of an option follows it as the next word, behind an equals sign
or, for a short option, directly.  No option may be given twice, and behind two
hyphens alone there are no options.

The words are taken in from left to right and the first one that breaks a rule
or asks for help decides, so help that is asked for behind a mistake is not
given.
-/

namespace TieredStore
namespace CommandLine

inductive ValueKind
  | number
  | format
  deriving Repr, DecidableEq

/-- The number that a word stands for, which has to fit into a word of 64 bits. -/
def number? (word : String) : Option Nat :=
  (Text.decimalValue? word.toList).filter (· ≤ maxWord)

def format? (word : String) : Option Format :=
  if word = "text" then some .text
  else if word = "json" then some .json
  else none

def ValueKind.accepts : ValueKind → String → Bool
  | number, word => (number? word).isSome
  | format, word => (format? word).isSome

structure Switch where
  long : String
  short : Option Char := none
  /-- What its value stands for, if a value has to follow. -/
  value : Option ValueKind := none
  deriving Repr, DecidableEq

inductive Stop
  | usage
  | help
  | version
  deriving Repr, DecidableEq

structure Words where
  /-- The options and their values, empty for an option without one. -/
  options : List (String × String) := []
  others : List String := []
  deriving Repr, DecidableEq

namespace Words

def value? (words : Words) (name : String) : Option String := words.options.lookup name

def has (words : Words) (name : String) : Bool := (words.value? name).isSome

def add (words : Words) (name : String) : Except Stop Words :=
  if name = "help" then .error .help
  else if name = "version" then .error .version
  else if words.has name then .error .usage
  else .ok { words with options := words.options ++ [(name, "")] }

/-- Takes in an option and its value.  The option must not be there yet. -/
def addValue (words : Words) (name : String) (kind : ValueKind) (value : String) :
    Except Stop Words :=
  if words.has name || !kind.accepts value then .error .usage
  else .ok { words with options := words.options ++ [(name, value)] }

/-- Takes in a word that is no option: there is only one, and it is not empty. -/
def addOther (words : Words) (word : String) : Except Stop Words :=
  if word.isEmpty || !words.others.isEmpty then .error .usage
  else .ok { words with others := [word] }

end Words

/-- Whether a word is an option and not the value of one. -/
def isOption (word : String) : Bool := word.startsWith "-" && word.length > 1

/-- Takes in a word that starts with two hyphens.  Answers the option whose value comes next. -/
def takeLong (known : List Switch) (words : Words) (body : String) :
    Except Stop (Words × Option (String × ValueKind)) :=
  let (name, value) := match body.splitOn "=" with
    | [] => (body, none)
    | [name] => (name, none)
    | name :: rest => (name, some ("=".intercalate rest))
  match known.find? (·.long = name) with
  | none => .error .usage
  | some switch =>
      match switch.value, value with
      | some kind, some value => do return (← words.addValue name kind value, none)
      | some kind, none => .ok (words, some (name, kind))
      | none, some _ => .error .usage
      | none, none => do return (← words.add name, none)

/-- Takes in the characters behind one hyphen.  Answers the option whose value comes next. -/
def takeShort (known : List Switch) (words : Words) :
    List Char → Except Stop (Words × Option (String × ValueKind))
  | [] => .ok (words, none)
  | c :: rest =>
      match known.find? (·.short = some c) with
      | none => .error .usage
      | some switch =>
          match switch.value, rest with
          | none, rest => do
              let words ← words.add switch.long
              takeShort known words rest
          | some kind, [] => .ok (words, some (switch.long, kind))
          | some kind, '=' :: value => do
              return (← words.addValue switch.long kind (String.ofList value), none)
          | some kind, value => do
              return (← words.addValue switch.long kind (String.ofList value), none)

/-- Takes in words, the first of which is the value of the option that waits for one. -/
def takeWords (known : List Switch) : (waiting : Option (String × ValueKind)) → Words →
    List String → Except Stop Words
  | none, words, [] => .ok words
  | some _, _, [] => .error .usage
  | some (name, kind), words, word :: rest =>
      if isOption word then .error .usage
      else do takeWords known none (← words.addValue name kind word) rest
  | none, words, word :: rest =>
      if word = "--" then rest.foldlM Words.addOther words
      else if word.startsWith "--" then do
        let (words, waiting) ← takeLong known words (String.ofList (word.toList.drop 2))
        takeWords known waiting words rest
      else if isOption word then do
        let (words, waiting) ← takeShort known words (word.toList.drop 1)
        takeWords known waiting words rest
      else do takeWords known none (← words.addOther word) rest

/-! ## The commands -/

def common : List Switch := [{ long := "verbose", short := some 'v' }, { long := "help", short := some 'h' }]

def leading : List Switch := { long := "version", short := some 'V' } :: common

def formatSwitch : Switch := { long := "format", short := some 'f', value := some .format }

def directoryOf (words : Words) : Except Stop String :=
  match words.others with
  | [] => .error .usage
  | directory :: _ => .ok directory

def formatOf (words : Words) : Format := ((words.value? "format").bind format?).getD .text

def numberOf (words : Words) (name : String) : Option Nat := (words.value? name).bind number?

def topics : List String := ["inspect", "verify", "dump-log", "help"]

/-- What is wanted of the words behind `help`: they are one topic, or none. -/
def helpStop : List String → Stop
  | [] => .help
  | [topic] => if topic ∈ topics then .help else .usage
  | _ => .usage

def commandOf (name : String) (rest : List String) : Except Stop Command :=
  if name = "inspect" then do
    let known := { long := "segments", short := some 's' } :: formatSwitch :: common
    let words ← takeWords known none {} rest
    return .inspect (← directoryOf words) (words.has "segments") (formatOf words)
  else if name = "verify" then do
    let words ← takeWords ({ long := "no-replay" } :: common) none {} rest
    return .verify (← directoryOf words) (!words.has "no-replay")
  else if name = "dump-log" then do
    let known :=
      { long := "from", value := some .number } ::
        { long := "limit", short := some 'l', value := some .number } :: formatSwitch :: common
    let words ← takeWords known none {} rest
    return .list (← directoryOf words) ((numberOf words "from").getD 1) (numberOf words "limit")
      (formatOf words)
  else if name = "help" then .error (helpStop rest)
  else .error .usage

def parse (arguments : List String) : Except Stop Command := do
  let front := arguments.takeWhile isOption
  discard (takeWords leading none {} (front.takeWhile (· ≠ "--")))
  match arguments.dropWhile isOption with
  | name :: rest => if front.contains "--" then .error .usage else commandOf name rest
  | [] => .error .usage

/-! ## Carrying it out -/

def versionText : String := "streamseg 0.3.0"

def usageText : String := "usage: streamseg (inspect | verify | dump-log) DIR [options]"

structure Ending where
  /-- What the caller is told: zero for success, one for failure, two for a wrong command line. -/
  status : Nat
  printed : List String := []
  complaint : Option String := none

def Ending.ofOutcome (outcome : Command.Outcome) : Ending :=
  match outcome.result with
  | .ok () => { status := 0, printed := outcome.printed }
  | .error e => { status := 1, printed := outcome.printed, complaint := some s!"Error: {e.message}" }

def Ending.ofStop : Stop → Ending
  | .usage => { status := 2, complaint := some usageText }
  | .help => { status := 0, printed := [usageText] }
  | .version => { status := 0, printed := [versionText] }

/-- Carries out a command line on the ledgers that a path leads to, which are given back. -/
def run (arguments : List String) (find : String → Option Ledgers) : Ending × Option Ledgers :=
  match parse arguments with
  | .error stop => (.ofStop stop, none)
  | .ok command =>
      let (outcome, after) := command.run (find command.ledgerDirectory)
      (.ofOutcome outcome, after)

end CommandLine
end TieredStore
