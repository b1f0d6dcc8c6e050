import BBNotifier.Item.NormalizeIcon

/-! # Gray icons whose contrast is raised

An opaque gray icon stays opaque and gray. Its brightness is spread around the
mean of its darkest and its lightest pixel, which is rounded down. Where this
rounding weighs too much, the lightest pixel leaves the range of a channel and
becomes darker than the darkest one. All of this is about exact quotients, for
which the code has doubles.
-/

namespace BBNotifier

open Foundation

namespace NormalizeIcon

/-! ## The darkest and the lightest pixel -/

variable {image : QImage}

/-- How far the lightest pixel is from the darkest. -/
def contrast (image : QImage) : Int := lightest image - darkest image

section

variable {light : Int}

end

/-! ## The icon -/

end NormalizeIcon

end BBNotifier
