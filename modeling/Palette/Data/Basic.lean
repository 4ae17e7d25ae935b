import Palette.Number.Binary32

-- Plain data to be written out: texts, numbers, lists, records whose fields keep their order, and
-- variants, which are records under a tag that tells them apart.

namespace Palette

inductive Data where
  | text (s : String)
  | whole (n : Nat)
  | number (x : Binary32)
  | list (items : List Data)
  | record (fields : List (String × Data))
  | variant (tag : String) (fields : List (String × Data))
  deriving Inhabited

end Palette
