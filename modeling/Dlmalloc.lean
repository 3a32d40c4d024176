import Dlmalloc.Properties.BadAllocator
import Dlmalloc.Properties.Blocks
import Dlmalloc.Properties.Capacity
import Dlmalloc.Properties.Checker
import Dlmalloc.Properties.Extensions
import Dlmalloc.Properties.HeapChecks
import Dlmalloc.Properties.Reclamation
import Dlmalloc.Properties.Reinit
import Dlmalloc.Properties.Relocation
import Dlmalloc.Properties.Search
import Dlmalloc.Properties.SizeClasses
import Dlmalloc.Properties.Speed
import Dlmalloc.Properties.Utilization
import Dlmalloc.Properties.Validation
import Dlmalloc.Properties.Validator
import Dlmalloc.Properties.Walks
import Dlmalloc.Properties.Waste
import Dlmalloc.Properties.Wraparound
