import MiniC.Assembly.Basic

/-! The text of a listing. Labels stand at the margin, instructions are indented by two
spaces. -/
namespace MiniC

/-- The name of a register. -/
def Reg.name : Reg → String
  | rax => "rax"
  | rdi => "rdi"
  | rsi => "rsi"
  | rdx => "rdx"
  | rcx => "rcx"
  | r8 => "r8"
  | r9 => "r9"
  | rsp => "rsp"
  | rbp => "rbp"

/-- The ending of a conditional instruction. -/
def Relation.suffix : Relation → String
  | eq => "e"
  | ne => "ne"
  | lt => "l"
  | le => "le"
  | gt => "g"
  | ge => "ge"

/-- The family of names that a label belongs to. -/
def LabelPlace.stem : LabelPlace → String
  | ifEnd => ".Lifend"
  | elseBegin => ".Lifelseelse"
  | elseEnd => ".Lifelseend"
  | whileBegin => ".Lwhilebegin"
  | whileEnd => ".Lwhileend"
  | forBegin => ".Lforbegin"
  | forEnd => ".Lforend"

/-- The name of a label. -/
def Label.name (l : Label) : String :=
  l.place.stem ++ toString l.number.toNat

namespace Instr

/-- An instruction with two operands. -/
def binaryText (mnemonic dst src : String) : String :=
  mnemonic ++ " " ++ dst ++ ", " ++ src

/-- The text of an instruction. -/
def text : Instr → String
  | push src => "push " ++ src.name
  | pushWord value => "push " ++ toString value.toInt
  | pop dst => "pop " ++ dst.name
  | mov dst src => binaryText "mov" dst.name src.name
  | movWord dst value => binaryText "mov" dst.name (toString value.toInt)
  | load dst base => binaryText "mov" dst.name ("[" ++ base.name ++ "]")
  | store base src => binaryText "mov" ("[" ++ base.name ++ "]") src.name
  | spill offset src => binaryText "mov" ("[rbp-" ++ toString offset ++ "]") src.name
  | add dst src => binaryText "add" dst.name src.name
  | addBytes dst count => binaryText "add" dst.name (toString count)
  | sub dst src => binaryText "sub" dst.name src.name
  | subBytes dst count => binaryText "sub" dst.name (toString count)
  | imul dst src => binaryText "imul" dst.name src.name
  | neg dst => "neg " ++ dst.name
  | cqo => "cqo"
  | idiv src => "idiv " ++ src.name
  | cmp lhs rhs => binaryText "cmp" lhs.name rhs.name
  | cmpZero lhs => binaryText "cmp" lhs.name "0"
  | set relation => "set" ++ relation.suffix ++ " al"
  | movzx => binaryText "movzx" "rax" "al"
  | jmp target => "jmp " ++ target.name
  | je target => "je " ++ target.name
  | call callee => "call " ++ callee
  | ret => "ret"

end Instr

namespace Line

/-- The text of a line with its line feed. -/
def render : Line → String
  | entry function => function ++ ":\n"
  | label l => l.name ++ ":\n"
  | instr i => "  " ++ i.text ++ "\n"

end Line

/-- The two lines that begin every listing. -/
def listingHeader : String :=
  ".intel_syntax noprefix\n.global main\n"

/-- A whole listing. -/
def listing (lines : List Line) : String :=
  listingHeader ++ String.join (lines.map Line.render)

end MiniC
