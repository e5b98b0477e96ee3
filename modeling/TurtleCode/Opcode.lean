/-!
# The instruction set

The machine's opcodes, in the order of their numbers.  An opcode's number, its operand count and
its two spellings are part of the contract with the machine.

* `Opcode.value` and `Opcode.ofValue?` go between opcodes and numbers.
* `Opcode.operandCount` is the number of integers that follow an opcode on a line; a string
  constant has one, its length, and then that many character codes.
* `Opcode.stringForm?` pairs each ambiguous operator with the opcode that works on strings.
-/

namespace TurtleCode

/-- An operation of the machine.  The order of the constructors gives the numbers. -/
inductive Opcode
  | null | dupl | swap | rota | incr | decr | not | and | or | xor | neg | abs | sign | min
  | max | plus | subt | mult | divr | div | mod | sqrt | powr | rand | eqal | noeq | less
  | more | lseq | mreq | scat | seql | sneq | sles | smor | slse | smre | ctos | itos | hexs
  | qtos | sval | slen | case | copy | dels | inss | repl | spos | rdln | frln | ldin | ldvg
  | ldvv | ldvr | ldag | ldav | lstr | stvg | stvv | stvr | lptr | sptr | cstr | zptr | test
  | jump | ifno | halt | subr | retn | memc | memr | hclr | inpt | canv | reso | bufr | home
  | setx | sety | setd | angl | thik | colr | pen | fwrd | back | left | rght | turn | toxy
  | mvxy | drxy | circ | blot | box | prnt | writ | outp | time | wait | updt
deriving DecidableEq, Repr

namespace Opcode

def all : List Opcode :=
  [
    .null, .dupl, .swap, .rota, .incr, .decr, .not, .and, .or, .xor, .neg, .abs, .sign, .min,
    .max, .plus, .subt, .mult, .divr, .div, .mod, .sqrt, .powr, .rand, .eqal, .noeq, .less,
    .more, .lseq, .mreq, .scat, .seql, .sneq, .sles, .smor, .slse, .smre, .ctos, .itos, .hexs,
    .qtos, .sval, .slen, .case, .copy, .dels, .inss, .repl, .spos, .rdln, .frln, .ldin, .ldvg,
    .ldvv, .ldvr, .ldag, .ldav, .lstr, .stvg, .stvv, .stvr, .lptr, .sptr, .cstr, .zptr, .test,
    .jump, .ifno, .halt, .subr, .retn, .memc, .memr, .hclr, .inpt, .canv, .reso, .bufr, .home,
    .setx, .sety, .setd, .angl, .thik, .colr, .pen, .fwrd, .back, .left, .rght, .turn, .toxy,
    .mvxy, .drxy, .circ, .blot, .box, .prnt, .writ, .outp, .time, .wait, .updt]

def number (op : Opcode) : Nat := op.ctorIdx

def value (op : Opcode) : Int64 := Int64.ofNat op.number

def ofValue? (n : Int64) : Option Opcode :=
  match n.toInt with
  | .ofNat k => all[k]?
  | .negSucc _ => none

/-- How an opcode is spelt in a routine tree. -/
def name : Opcode → String
  | .null => "Null"
  | .dupl => "Dupl"
  | .swap => "Swap"
  | .rota => "Rota"
  | .incr => "Incr"
  | .decr => "Decr"
  | .not => "Not"
  | .and => "And"
  | .or => "Or"
  | .xor => "Xor"
  | .neg => "Neg"
  | .abs => "Abs"
  | .sign => "Sign"
  | .min => "Min"
  | .max => "Max"
  | .plus => "Plus"
  | .subt => "Subt"
  | .mult => "Mult"
  | .divr => "Divr"
  | .div => "Div"
  | .mod => "Mod"
  | .sqrt => "Sqrt"
  | .powr => "Powr"
  | .rand => "Rand"
  | .eqal => "Eqal"
  | .noeq => "Noeq"
  | .less => "Less"
  | .more => "More"
  | .lseq => "Lseq"
  | .mreq => "Mreq"
  | .scat => "Scat"
  | .seql => "Seql"
  | .sneq => "Sneq"
  | .sles => "Sles"
  | .smor => "Smor"
  | .slse => "Slse"
  | .smre => "Smre"
  | .ctos => "Ctos"
  | .itos => "Itos"
  | .hexs => "Hexs"
  | .qtos => "Qtos"
  | .sval => "Sval"
  | .slen => "Slen"
  | .case => "Case"
  | .copy => "Copy"
  | .dels => "Dels"
  | .inss => "Inss"
  | .repl => "Repl"
  | .spos => "Spos"
  | .rdln => "Rdln"
  | .frln => "Frln"
  | .ldin => "Ldin"
  | .ldvg => "Ldvg"
  | .ldvv => "Ldvv"
  | .ldvr => "Ldvr"
  | .ldag => "Ldag"
  | .ldav => "Ldav"
  | .lstr => "Lstr"
  | .stvg => "Stvg"
  | .stvv => "Stvv"
  | .stvr => "Stvr"
  | .lptr => "Lptr"
  | .sptr => "Sptr"
  | .cstr => "Cstr"
  | .zptr => "Zptr"
  | .test => "Test"
  | .jump => "Jump"
  | .ifno => "Ifno"
  | .halt => "Halt"
  | .subr => "Subr"
  | .retn => "Retn"
  | .memc => "Memc"
  | .memr => "Memr"
  | .hclr => "Hclr"
  | .inpt => "Inpt"
  | .canv => "Canv"
  | .reso => "Reso"
  | .bufr => "Bufr"
  | .home => "Home"
  | .setx => "Setx"
  | .sety => "Sety"
  | .setd => "Setd"
  | .angl => "Angl"
  | .thik => "Thik"
  | .colr => "Colr"
  | .pen => "Pen"
  | .fwrd => "Fwrd"
  | .back => "Back"
  | .left => "Left"
  | .rght => "Rght"
  | .turn => "Turn"
  | .toxy => "Toxy"
  | .mvxy => "Mvxy"
  | .drxy => "Drxy"
  | .circ => "Circ"
  | .blot => "Blot"
  | .box => "Box"
  | .prnt => "Prnt"
  | .writ => "Writ"
  | .outp => "Outp"
  | .time => "Time"
  | .wait => "Wait"
  | .updt => "Updt"

def mnemonic : Opcode → String
  | .null => "NULL"
  | .dupl => "DUPL"
  | .swap => "SWAP"
  | .rota => "ROTA"
  | .incr => "INCR"
  | .decr => "DECR"
  | .not => "NOT"
  | .and => "AND"
  | .or => "OR"
  | .xor => "XOR"
  | .neg => "NEG"
  | .abs => "ABS"
  | .sign => "SIGN"
  | .min => "MIN"
  | .max => "MAX"
  | .plus => "PLUS"
  | .subt => "SUBT"
  | .mult => "MULT"
  | .divr => "DIVR"
  | .div => "DIV"
  | .mod => "MOD"
  | .sqrt => "SQRT"
  | .powr => "POWR"
  | .rand => "RAND"
  | .eqal => "EQAL"
  | .noeq => "NOEQ"
  | .less => "LESS"
  | .more => "MORE"
  | .lseq => "LSEQ"
  | .mreq => "MREQ"
  | .scat => "SCAT"
  | .seql => "SEQL"
  | .sneq => "SNEQ"
  | .sles => "SLES"
  | .smor => "SMOR"
  | .slse => "SLSE"
  | .smre => "SMRE"
  | .ctos => "CTOS"
  | .itos => "ITOS"
  | .hexs => "HEXS"
  | .qtos => "QTOS"
  | .sval => "SVAL"
  | .slen => "SLEN"
  | .case => "CASE"
  | .copy => "COPY"
  | .dels => "DELS"
  | .inss => "INSS"
  | .repl => "REPL"
  | .spos => "SPOS"
  | .rdln => "RDLN"
  | .frln => "FRLN"
  | .ldin => "LDIN"
  | .ldvg => "LDVG"
  | .ldvv => "LDVV"
  | .ldvr => "LDVR"
  | .ldag => "LDAG"
  | .ldav => "LDAV"
  | .lstr => "LSTR"
  | .stvg => "STVG"
  | .stvv => "STVV"
  | .stvr => "STVR"
  | .lptr => "LPTR"
  | .sptr => "SPTR"
  | .cstr => "CSTR"
  | .zptr => "ZPTR"
  | .test => "TEST"
  | .jump => "JUMP"
  | .ifno => "IFNO"
  | .halt => "HALT"
  | .subr => "SUBR"
  | .retn => "RETN"
  | .memc => "MEMC"
  | .memr => "MEMR"
  | .hclr => "HCLR"
  | .inpt => "INPT"
  | .canv => "CANV"
  | .reso => "RESO"
  | .bufr => "BUFR"
  | .home => "HOME"
  | .setx => "SETX"
  | .sety => "SETY"
  | .setd => "SETD"
  | .angl => "ANGL"
  | .thik => "THIK"
  | .colr => "COLR"
  | .pen => "PEN"
  | .fwrd => "FWRD"
  | .back => "BACK"
  | .left => "LEFT"
  | .rght => "RGHT"
  | .turn => "TURN"
  | .toxy => "TOXY"
  | .mvxy => "MVXY"
  | .drxy => "DRXY"
  | .circ => "CIRC"
  | .blot => "BLOT"
  | .box => "BOX"
  | .prnt => "PRNT"
  | .writ => "WRIT"
  | .outp => "OUTP"
  | .time => "TIME"
  | .wait => "WAIT"
  | .updt => "UPDT"

/-- How many integers follow the opcode, the characters of a string constant not counted. -/
def operandCount : Opcode → Nat
  | .ldvv | .ldvr | .ldav | .stvv | .stvr | .memc => 2
  | .ldin | .ldvg | .ldag | .lstr | .stvg | .jump | .ifno | .subr | .memr => 1
  | _ => 0

/-- The string form of an operator that works on numbers and on strings. -/
def stringForm? : Opcode → Option Opcode
  | .plus => some .scat
  | .eqal => some .seql
  | .noeq => some .sneq
  | .less => some .sles
  | .more => some .smor
  | .lseq => some .slse
  | .mreq => some .smre
  | _ => none

def numericForm? : Opcode → Option Opcode
  | .scat => some .plus
  | .seql => some .eqal
  | .sneq => some .noeq
  | .sles => some .less
  | .smor => some .more
  | .slse => some .lseq
  | .smre => some .mreq
  | _ => none

/-- Opcodes that may leave a temporary string on the heap. -/
def buildsString : Opcode → Bool
  | .scat | .ctos | .itos | .hexs | .qtos | .case | .copy | .dels | .inss | .repl | .rdln | .frln =>
    true
  | _ => false

def takesAddress : Opcode → Bool
  | .jump | .ifno | .subr => true
  | _ => false

theorem all_getElem?_number (op : Opcode) : all[op.number]? = some op := by
  cases op <;> rfl

end Opcode

end TurtleCode
