import Ragent.PageExtraction

set_option autoImplicit false

/-!
# Boxes of pages that are displayed on their side

`_extract_pdf` hands over the size of the displayed page where `to_normalised` expects the size
before the rotation. On a page that is turned on its side every edge is read against the wrong side
length.
-/
namespace Ragent.MisplacedBoxes
open SpacedWords PyText QuarterTurns SourceTypes BoundingBoxes PageExtraction

def xs (rect : TextRect) : ℚ × ℚ := (min rect.left rect.right, max rect.left rect.right)

def ys (rect : TextRect) : ℚ × ℚ := (min rect.bottom rect.top, max rect.bottom rect.top)

section
variable {s : Sheet} {rect : TextRect}

end

end Ragent.MisplacedBoxes
