import XyOS.Foundation.Linked
import XyOS.Foundation.Word

/-! The circular lists of `list.h`. The link words of all `ListNode`s are one
function from the address of the node; `0` is `NULL`. -/

namespace XyOS
open Linked

def listAdd (next : ℕ → ℕ) (prev newNode : ℕ) : ℕ → ℕ := insertAfter next prev newNode

def listRemove (next : ℕ → ℕ) (prev : ℕ) : ℕ × (ℕ → ℕ) := (next prev, removeAfter 0 next prev)

def isListEmpty (next : ℕ → ℕ) (head : ℕ) : Bool := next head == head

def listNodes (next : ℕ → ℕ) (head : ℕ) : List ℕ := collect next head loopFuel head

end XyOS
