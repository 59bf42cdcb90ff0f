/-! The operator signs of a keypad, and the signs of the grammar that they stand for. -/
namespace Reckoner.Glyph

/-- A keypad sign as its sign in the grammar; all other characters as they are. -/
def canonical : Char → Char
  | '×' => '*'
  | '÷' => '/'
  | '−' => '-'
  | c => c

def normalize (text : String) : String := text.map canonical

end Reckoner.Glyph
