import BottomResearch.Archive
import BottomResearch.Blocks
import BottomResearch.Coexistence
import BottomResearch.KeyResolution
import BottomResearch.Transparency
import BottomResearch.KeyNames
import BottomResearch.Lifetime
import BottomResearch.IvarList
import BottomResearch.Scalars
import BottomResearch.Container
import BottomResearch.Swizzling
import BottomResearch.Forwarding
import BottomResearch.MessageLookup
import BottomResearch.WeakSafety
import BottomResearch.RetainSafety
import BottomResearch.PoolSafety
import BottomResearch.LoadSafety
