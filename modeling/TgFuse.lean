import TgFuse.Spec.Listing
import TgFuse.Spec.Rmdir
import TgFuse.Spec.Removal
import TgFuse.Spec.Extraction
import TgFuse.Spec.ReadBack
import TgFuse.Spec.Tables
import TgFuse.Spec.Buffers
import TgFuse.Spec.Holes
import TgFuse.Spec.Scalars
import TgFuse.Spec.Missing
import TgFuse.Spec.Lengths
import TgFuse.Spec.Urls
import TgFuse.Spec.Reception
import TgFuse.Spec.Reads
import TgFuse.Spec.Robustness
import TgFuse.Spec.Identity
import TgFuse.Spec.Atomicity
import TgFuse.Spec.Interleaving
import TgFuse.Spec.Splitting
import TgFuse.Spec.Reference
import TgFuse.Spec.Composition
import TgFuse.Spec.Leaks
import TgFuse.Spec.Secrecy
import TgFuse.Spec.Traffic
import TgFuse.Spec.Leftovers
import TgFuse.Spec.Completion
