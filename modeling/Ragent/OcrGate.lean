import Ragent.PageExtraction

set_option autoImplicit false

/-!
# The OCR gate

A page passes `assess_text_layer` on the product of the factors of all signals that fire, so the
worst one bounds the score.
-/
namespace Ragent.OcrGate
open PyText PageExtraction

def score (ss : List Signal) : ℚ := ((ss.filter (·.fires)).map (·.factor)).prod

section
variable {text : List Char} {w h : ℚ}

end
end Ragent.OcrGate
