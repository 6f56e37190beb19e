import Tigon.Library.PointUpdate
import Tigon.TwoPLPasha.Table

namespace Tigon.TwoPLPasha

abbrev Contents (R α : Type) := R → Option α

namespace RowState

open TwoPLPashaSharedDataSCC (valid_flag_index)

variable {α : Type}

def content (r : RowState α) : Option α :=
  if r.lmeta.is_migrated then
    let d := r.sccOf r.lmeta.migrated_row
    if d.get_flag valid_flag_index then some d.data else none
  else if r.lmeta.is_valid then some r.data else none

end RowState

end Tigon.TwoPLPasha
