import MiniC.Compile
import MiniC.Proofs.Grammar.Completeness
import MiniC.Proofs.Grammar.Soundness

/-! The parser accepts exactly what the grammar derives, and the grammar is unambiguous. -/
namespace MiniC

variable {dialect : Dialect} {tokens : List Token}

theorem parse_eq_ok_iff {p : Program} :
    parse dialect tokens = .ok p ↔ Program.Derives dialect (Token.texts tokens) p :=
  ⟨derives_of_parse, parse_of_derives⟩

theorem Program.Derives.unique {p q : Program}
    (hp : Program.Derives dialect (Token.texts tokens) p)
    (hq : Program.Derives dialect (Token.texts tokens) q) : p = q := by
  have h := (parse_of_derives hp).symm.trans (parse_of_derives hq)
  exact Except.ok.inj h

/-- Whatever the source and the places of the tokens are, they are parsed as the one program that
their texts derive. -/
theorem parseTokens_recognizes (source : String) (dialect : Dialect) (tokens : List Token) :
    (∀ p, parseTokens source dialect tokens = .ok p ↔
      Program.Derives dialect (Token.texts tokens) p) ∧
    {p | Program.Derives dialect (Token.texts tokens) p}.Subsingleton := by
  refine ⟨fun p => ?_, fun p hp q hq => hp.unique hq⟩
  rw [← parse_eq_ok_iff, parseTokens]
  cases parse dialect tokens <;> simp [Except.mapError]

end MiniC
