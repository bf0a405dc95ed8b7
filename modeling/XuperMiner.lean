import XuperMiner.Basic
import XuperMiner.Table
import XuperMiner.World
import XuperMiner.Cycle
import XuperMiner.Thaw
import XuperMiner.Pack
import XuperMiner.Mining
import XuperMiner.Longest
import XuperMiner.Sync
import XuperMiner.Batch
import XuperMiner.Loop
import XuperMiner.Xvm
import XuperMiner.Clear
import XuperMiner.Ledger
