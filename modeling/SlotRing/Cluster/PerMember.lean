/-
# Work per member

What has to be sent is gathered per recipient: the recipients in the order of
their addresses, and for each of them its items in the order in which they came
up.
-/
import Std.Data.ExtTreeMap
import SlotRing.Address

namespace SlotRing

def addFor {β : Type} (groups : Std.ExtTreeMap Address (List β)) (item : Address × β) :
    Std.ExtTreeMap Address (List β) :=
  groups.insert item.1 ((groups[item.1]?.getD []) ++ [item.2])

def perMember {β : Type} (items : List (Address × β)) : List (Address × List β) :=
  (items.foldl addFor ∅).toList

end SlotRing
