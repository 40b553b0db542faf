import LanguageTest.Library.Program
import LanguageTest.Library.Heap
import LanguageTest.Library.Arithmetic
import LanguageTest.Library.Cells
import LanguageTest.Library.RingBuffer
import LanguageTest.Stl.CycleQueue
import LanguageTest.Stl.Vector
import LanguageTest.String.MyString
import LanguageTest.String.MyStringRuns
import LanguageTest.Leetcode.MyCircularQueue
import LanguageTest.Leetcode.MinStack
import LanguageTest.Algorithm.BitMap
import LanguageTest.Library.Tree
import LanguageTest.Library.RedBlack
import LanguageTest.Library.Ordered
import LanguageTest.Library.Linked
import LanguageTest.Tree.RBTree
import LanguageTest.Tree.RBTreeHeap
import LanguageTest.Tree.RBTreeInsert
import LanguageTest.Tree.RBTreeRemoveFixUp
import LanguageTest.Tree.RBTreeRemove
import LanguageTest.Tree.RBTreeRuns
import LanguageTest.Library.Balanced
import LanguageTest.Tree.AVL
import LanguageTest.Tree.AVLInvariant
import LanguageTest.Tree.AVLRuns
import LanguageTest.Tree.BST
import LanguageTest.Tree.BSTSearch
import LanguageTest.Library.Traversal
import LanguageTest.Tree.Traversal
import LanguageTest.Tree.BSTUpdate
import LanguageTest.Tree.BSTDelete
import LanguageTest.Tree.BSTRuns
import LanguageTest.Library.Forest
import LanguageTest.Race.UnionFind
import LanguageTest.Race.UnionFindPartition
import LanguageTest.Race.Trie
import LanguageTest.Race.TrieCounts
import LanguageTest.Race.TrieRuns
import LanguageTest.Library.Recency
import LanguageTest.Library.Probing
import LanguageTest.Linux.LRU
import LanguageTest.Linux.LRURefinement
import LanguageTest.Linux.LRURuns
import LanguageTest.Stl.MyHash
import LanguageTest.Stl.MyHashSearch
import LanguageTest.Stl.MyHashInvariant
import LanguageTest.Stl.MyHashUpdate
import LanguageTest.Stl.MyHashRuns
import LanguageTest.Stl.MyHashSet
import LanguageTest.Library.PriorityQueue
import LanguageTest.Leetcode.MedianFinder
import LanguageTest.Library.Selection
import LanguageTest.Leetcode.KthLargest
import LanguageTest.Library.Transition
import LanguageTest.Library.Monitor
import LanguageTest.Library.Turns
import LanguageTest.Stl.ThreadsafeQueue
import LanguageTest.Old.ProducerConsumer
import LanguageTest.Thread.Temp
import LanguageTest.Thread.PrintAbc
import LanguageTest.Base.ThreadPool2
import LanguageTest.Base.ThreadPool2Deadlock
import LanguageTest.Thread.ThreadPool
import LanguageTest.CppLanguage.Semaphore
import LanguageTest.Base.ThreadPool1
import LanguageTest.Base.ThreadPool1Shutdown
import LanguageTest.Stl.SafeQueue
import LanguageTest.Stl.SafeQueueRelease
import LanguageTest.Library.Handles
import LanguageTest.Stl.SmartPointer
import LanguageTest.Base.WeakPtr
import LanguageTest.Base.WeakPtrCounts
import LanguageTest.Base.WeakPtrRuns
import LanguageTest.Library.FreeList
import LanguageTest.Memory.FreeNodes
import LanguageTest.Memory.MemPool2
import LanguageTest.Memory.MemPool
import LanguageTest.Library.Precision
import LanguageTest.Old.CachedTime
import LanguageTest.Old.AtomicTimeCache
import LanguageTest.Old.RwlockTimeCache
import LanguageTest.MyReactor.Lifecycle
import LanguageTest.MyReactor.Server
import LanguageTest.MyReactor.ServerOwnership
import LanguageTest.Library.Counting
import LanguageTest.Library.Elements
import LanguageTest.Library.Sorting
import LanguageTest.Library.Rearranged
import LanguageTest.Library.MaxHeap
import LanguageTest.Sort.InsertSort
import LanguageTest.Sort.BubbleSort
import LanguageTest.Sort.SelectSort
import LanguageTest.Sort.ShellSort
import LanguageTest.Sort.HeapSort
import LanguageTest.Sort.MergeSort
import LanguageTest.Sort.QuickSort
import LanguageTest.Library.Ranks
import LanguageTest.Sort.CountSort
import LanguageTest.Library.Doubles
import LanguageTest.Leetcode.MedianOfTwoSortedArrays
import LanguageTest.Library.LeastFactor
import LanguageTest.Race.Gcd
import LanguageTest.Race.QuickPow
import LanguageTest.Race.Primes
import LanguageTest.Library.Positional
import LanguageTest.Race.BigAdd
import LanguageTest.Library.Tables
import LanguageTest.Race.Provinces
import LanguageTest.Library.CommonSubsequence
import LanguageTest.DynamicProgramming.LongestSubSequence
import LanguageTest.Library.Borders
import LanguageTest.String.Kmp
import LanguageTest.String.StringRowMatch
import LanguageTest.Library.Orbits
import LanguageTest.Leetcode.DetectCycle
import LanguageTest.Library.Postorder
import LanguageTest.Leetcode.VerifyPostorder
import LanguageTest.Library.Ancestors
import LanguageTest.Leetcode.LowestCommonAncestor
import LanguageTest.Library.Carry
import LanguageTest.Library.SinglyLinked
import LanguageTest.Leetcode.AddTwoNumbers
import LanguageTest.Leetcode.AddBinary
import LanguageTest.Library.Multiples
import LanguageTest.Leetcode.UglyNumber
import LanguageTest.Library.Surplus
import LanguageTest.Leetcode.MajorityElement
import LanguageTest.Library.Consecutive
import LanguageTest.Leetcode.LongestConsecutive
import LanguageTest.Library.Blocks
import LanguageTest.Leetcode.UnsortedSubarray
import LanguageTest.Library.Windows
import LanguageTest.Leetcode.LongestSubstring
import LanguageTest.Library.Arrangements
import LanguageTest.Leetcode.Permute
import LanguageTest.Library.Spiral
import LanguageTest.Leetcode.SpiralOrder
import LanguageTest.Library.Exchanges
import LanguageTest.Leetcode.RotateImage
import LanguageTest.Library.Strings
import LanguageTest.Leetcode.ReplaceSpace
import LanguageTest.Library.Words
import LanguageTest.Leetcode.ReverseWords
import LanguageTest.Leetcode.StrStr
import LanguageTest.Library.Copying
import LanguageTest.String.Memcpy
import LanguageTest.Library.Numerals
import LanguageTest.Leetcode.StrToInt
import LanguageTest.Base.Atoi
import LanguageTest.Library.Neighbours
import LanguageTest.Tree.RBTreeNeighbours
import LanguageTest.Tree.RBTreeDestroy
import LanguageTest.Tree.BSTNeighbours
import LanguageTest.Stl.MyHashTermination
import LanguageTest.MyReactor.Echo
import LanguageTest.Algorithm.BitMapBounds
import LanguageTest.Algorithm.ThreeSum
import LanguageTest.Leetcode.ReversePairs
import LanguageTest.Leetcode.MaxSlidingWindow
import LanguageTest.Leetcode.BuildTree
import LanguageTest.Leetcode.Flatten
import LanguageTest.Library.Bisection
import LanguageTest.Leetcode.SearchRange
import LanguageTest.Search.BinarySearch
import LanguageTest.Leetcode.MissingNumber
import LanguageTest.Math.CoOccurrence
import LanguageTest.String.MyStringOrder
import LanguageTest.Old.VdsoTime
import LanguageTest.Math.Sqrt
import LanguageTest.Library.GreaterSums
import LanguageTest.Leetcode.ConvertBST
import LanguageTest.Leetcode.MergeKLists
import LanguageTest.Library.Descriptors
import LanguageTest.Socket.Epoll
import LanguageTest.Socket.EpollRuns
import LanguageTest.MyReactor.NtyReactor
import LanguageTest.MyReactor.NtyReactorRuns
import LanguageTest.Library.Locks
import LanguageTest.Thread.EatThink
import LanguageTest.Library.Measures
import LanguageTest.Library.Wakeups
import LanguageTest.Base.Cargo
import LanguageTest.Base.ListHead
import LanguageTest.Base.Increases
import LanguageTest.Thread.ProducerAndConsumer
import LanguageTest.Interview.PrintId
import LanguageTest.Interview.Rows
import LanguageTest.Link.Mmap
import LanguageTest.Library.LevelOrder
import LanguageTest.Tree.BSTLifetime
import LanguageTest.Link.RevertLink
import LanguageTest.String.ReadWord
import LanguageTest.Leetcode.RemoveDuplicateNodes
import LanguageTest.String.MyStringFind
