import Cocool.Lib.Runs
import Cocool.Lib.Slots
import Cocool.Mmp.Pool
import Cocool.Mmp.Steps
import Cocool.Mmp.Session
import Cocool.Mmp.Counters
import Cocool.Mmp.Stability
import Cocool.Mmp.Partition
import Cocool.Mmp.RefCount
import Cocool.Mmp.Coherence
import Cocool.Mmp.Interning
import Cocool.Message.Items
import Cocool.Message.Conservation
import Cocool.Message.Bus
import Cocool.Message.HandOff
import Cocool.Message.Lifecycle
import Cocool.Message.Recycle
import Cocool.Heap.Header
import Cocool.Heap.Order
import Cocool.Mmp.Refill
import Cocool.Mmp.Growth
import Cocool.Message.Accept
import Cocool.Message.Events
import Cocool.Mmp.Blocks
import Cocool.Lib.Words
import Cocool.Message.Arena
import Cocool.Message.Receive
import Cocool.Heap.Adjust
import Cocool.Heap.Release
import Cocool.Heap.Membership
import Cocool.Heap.Capacity
import Cocool.Pthread.Create
import Cocool.Pthread.Delivery
import Cocool.Lib.Ints
import Cocool.Mmp.Sizes
import Cocool.Mmp.SizeRefinement
import Cocool.Lib.RedBlack
import Cocool.Rbtree.Node
import Cocool.Rbtree.Links
import Cocool.Rbtree.Rebalance
import Cocool.Rbtree.Traverse
import Cocool.Rbtree.Registry
import Cocool.Lib.RedBlackErase
import Cocool.Rbtree.Erase
import Cocool.Lib.SearchTree
import Cocool.Lib.Simulation
import Cocool.Rbtree.PageCache
import Cocool.Rbtree.Destroy
import Cocool.HashTable.Table
import Cocool.Lib.DList
import Cocool.Lib.Grouped
import Cocool.HashTable.Links
import Cocool.HashTable.Loops
import Cocool.HashTable.Operations
import Cocool.HashTable.Refine
import Cocool.Lib.IndexedHeap
import Cocool.Timer.MinHeap
import Cocool.Timer.Sift
import Cocool.Timer.Queue
import Cocool.Timer.Armed
import Cocool.Timer.Delivery
